import Mksh.Command.Candidates
import Mksh.Command.Expand
import Mksh.Command.Quoted
import Mksh.Vtysh.Basic

/-!
# Tab and Enter

When `Tab` is pressed, readline calls `commandGenerator` for the matches, one after the
other, until it returns `NULL`; it keeps them in static variables meanwhile
(`completionMatches_eq`). What readline puts in place of the current word is a common
prefix of the matches. Whatever this is, `Enter` then selects the element that it would
have selected before (`selects_of_completionMatches`): there is only one match, or else
the word is one of them, and is left as it is, as otherwise `Enter` would have refused the
line (`play_of_candidates`).
-/

namespace Mksh

open CString Elimination Prefixes

variable {F W : Type}

/-! ## The generator -/

/-- The static variables of `vtysh.c` for completion. An array ends with `NULL`. -/
structure GeneratorVars where
  matched : Option (List CString)
  index : ℕ
  completeStatus : ℤ

/-- The words before the current one, and the current one, unless it has not been begun. -/
def completionInput (rlLineBuffer : CString) : Option (List CString × Option CString) :=
  (cmdMakeStrvec rlLineBuffer).map fun vline =>
    if rlLineBuffer.getLast?.any isspace then (vline, none) else (vline.dropLast, vline.getLast?)

/-- The next match; `none` if it is read past the end of the array. -/
def nextMatch (c : GeneratorVars) : Option (Option CString × GeneratorVars) :=
  match c.matched with
  | none => some (none, c)
  | some matched =>
    if c.index < matched.length then some (matched[c.index]?, { c with index := c.index + 1 })
    else if c.index = matched.length then some (none, c)
    else none

/-- What a call returns; `none` if it crashes. -/
def commandGenerator (sh : Shell F W) (node : NodeType) (rlLineBuffer : CString) (state : ℕ)
    (c : GeneratorVars) : Option (Option CString × GeneratorVars) :=
  if state = 0 then
    let c := { c with index := 0 }
    if node = .auth ∨ node = .authEnable then some (none, c)
    else match completionInput rlLineBuffer with
      | none => some (none, c)
      | some (ws, command) =>
        match sh.cmdvec node with
        | none => none
        | some table =>
          let (completeStatus, matched) := cmdCompleteCommand table ws command
          nextMatch { c with matched, completeStatus }
  else nextMatch c

/-- The matches that readline gets, with at most `fuel` calls, which are numbered from
    `state` on. -/
def completionMatches (sh : Shell F W) (node : NodeType) (rlLineBuffer : CString) :
    ℕ → ℕ → GeneratorVars → Option (List CString × GeneratorVars)
  | 0, _, _ => none
  | fuel + 1, state, c =>
    match commandGenerator sh node rlLineBuffer state c with
    | none => none
    | some (none, c) => some ([], c)
    | some (some s, c) =>
      (completionMatches sh node rlLineBuffer fuel (state + 1) c).map fun r => (s :: r.1, r.2)

variable {sh : Shell F W} {node : NodeType} {line : CString} {table : List (CmdElement F)}
  {ws : List CString} {command : Option CString} {matched rest : List CString} {p q : CString}
  {e : CmdElement F} {argv : List CString} {i fuel : ℕ}

/-- The calls after some of the matches return the others. -/
theorem completionMatches_of_matched {index : ℕ} (completeStatus : ℤ)
    (hindex : index ≤ matched.length) (hfuel : matched.length < index + fuel) (state : ℕ) :
    completionMatches sh node line fuel (state + 1) ⟨some matched, index, completeStatus⟩ =
      some (matched.drop index, ⟨some matched, matched.length, completeStatus⟩) := by
  induction fuel generalizing index state with
  | zero => omega
  | succ fuel ih =>
    rw [completionMatches, commandGenerator, if_neg (Nat.succ_ne_zero state), nextMatch]
    dsimp only
    rcases hindex.lt_or_eq with hlt | heq
    · rw [if_pos hlt, List.getElem?_eq_getElem hlt]
      dsimp only
      rw [ih hlt (by omega) (state + 1), Option.map_some, List.drop_eq_getElem_cons hlt]
    · rw [if_neg heq.not_lt, if_pos heq, heq, List.drop_length]

/-- Readline gets what `cmdCompleteCommand` returns, whatever has been left before. -/
theorem completionMatches_eq (hnode : node ≠ .auth ∧ node ≠ .authEnable)
    (hline : completionInput line = some (ws, command)) (htable : sh.cmdvec node = some table)
    (c : GeneratorVars)
    (hfuel : ((cmdCompleteCommand table ws command).2.getD []).length < fuel) :
    (completionMatches sh node line fuel 0 c).map Prod.fst =
      some ((cmdCompleteCommand table ws command).2.getD []) := by
  obtain ⟨fuel, rfl⟩ := Nat.exists_eq_succ_of_ne_zero (Nat.ne_zero_of_lt hfuel)
  have hno : ¬(node = .auth ∨ node = .authEnable) := not_or.2 hnode
  rw [completionMatches, commandGenerator, if_pos rfl, if_neg hno, hline]
  dsimp only
  rw [htable]
  dsimp only
  rcases hmatched : (cmdCompleteCommand table ws command).2 with _ | matched
  · rfl
  · rw [hmatched, Option.getD_some] at hfuel
    rw [Option.getD_some, nextMatch]
    dsimp only
    rcases matched with _ | ⟨s, matched⟩
    · rfl
    · rw [List.length_cons, if_pos (Nat.zero_lt_succ _), List.getElem?_cons_zero]
      dsimp only
      rw [completionMatches_of_matched _ (by simp) (by simp at hfuel ⊢; omega)]
      rfl

/-! ## The candidates -/

/-- The candidates are the keywords that the word starts. -/
theorem mem_candidates {l : List (CmdElement F)} {s : CString} :
    s ∈ candidates (some p) i l ↔ p <+: s ∧ ∃ e ∈ l, HasKeyword s (e.item i) := by
  simp only [candidates, List.mem_eraseDups, List.mem_flatMap, completions, keywords,
    List.mem_filter, List.mem_map, HasKeyword, Option.all_some, decide_eq_true_eq]
  constructor
  · rintro ⟨e, he, ⟨⟨d, hd, rfl⟩, hkey⟩, hpre⟩
    exact ⟨hpre, e, he, d, hd, hkey, rfl⟩
  · rintro ⟨hpre, e, he, d, hd, hkey, rfl⟩
    exact ⟨e, he, ⟨⟨d, hd, rfl⟩, hkey⟩, hpre⟩

/-- Each of them is there once. -/
theorem candidates_nodup (command : Option CString) (i : ℕ) (l : List (CmdElement F)) :
    (candidates command i l).Nodup := by
  rw [← reduceOption_vectorCopy l, ← completeVector_nil_eq]
  exact completeVector_nodup List.nodup_nil

/-- A round on a word that abbreviates two keywords of the live elements, and is not one
    of them itself, fails. -/
theorem play_of_candidates {l : List (CmdElement F)} (hp : p ∉ candidates (some p) i l)
    (h : 2 ≤ (candidates (some p) i l).length) :
    (cmdRound completionClass p i).play l = .fail cmdErrAmbiguous := by
  have hnodup := candidates_nodup (some p) i l
  obtain ⟨s, t, hst, hs, ht⟩ : ∃ s t, s ≠ t ∧ s ∈ candidates (some p) i l ∧
      t ∈ candidates (some p) i l := by
    rcases hc : candidates (some p) i l with _ | ⟨s, _ | ⟨t, c⟩⟩
    · rw [hc] at h
      cases h
    · rw [hc] at h
      exact absurd h (by simp)
    · rw [hc] at hnodup
      exact ⟨s, t, fun hst => (List.nodup_cons.1 hnodup).1 (hst ▸ List.mem_cons_self),
        by simp, by simp⟩
  have hmem {s : CString} (hs : s ∈ candidates (some p) i l) :
      .partlyMatch ≤ topClass completionClass p i l ∧
        s ∈ liveHits p .partlyMatch i (matching completionClass p i l) := by
    obtain ⟨hpre, e, he, d, hd, hkey, rfl⟩ := mem_candidates.1 hs
    have hdc : completionClass p d.cmd = .partlyMatch := by
      rw [completionClass_of_isKeyword hkey, if_pos hpre, if_neg (ne_of_mem_of_not_mem hs hp).symm]
    have hle : MatchType.partlyMatch ≤ classAt (completionClass p) i e := hdc ▸ cls_le_classAt hd
    refine ⟨hle.trans (classAt_le_topClass he), mem_liveHits.2 ⟨e, List.mem_filter.2 ⟨he, ?_⟩,
      ⟨d, hd, rfl⟩, completionClass_classifies.hit hdc (by decide) (by decide)⟩⟩
    refine decide_eq_true fun hno => absurd (hno ▸ hle) (by decide)
  -- No keyword is the word itself, so the top class is `partlyMatch`.
  have htop : topClass completionClass p i l = .partlyMatch := by
    have hle := (hmem hs).1
    cases htt : topClass completionClass p i l with
    | partlyMatch => rfl
    | exactMatch =>
      obtain ⟨e, he, d, hd, hdc, -⟩ := exists_cls_eq_topClass (htt.trans_ne (by decide))
      obtain ⟨hkey, rfl⟩ := completionClass_classifies.exact.1 (hdc.trans htt)
      exact absurd (mem_candidates.2 ⟨List.prefix_rfl, e, he, d, hd, hkey, rfl⟩) hp
    | _ =>
      rw [htt] at hle
      exact absurd hle (by decide)
  have hconflict : roundConflict completionClass p i l = some 1 := by
    rw [roundConflict, htop, conflict, if_neg (by simp [isPartial]), if_pos]
    exact ⟨rfl, fun hag => hst (hag s (hmem hs).2 t (hmem ht).2)⟩
  have hvararg : topClass completionClass p i l ≠ .varargMatch := htop.trans_ne (by decide)
  rw [← reduceOption_vectorCopy l] at hconflict hvararg ⊢
  exact play_of_conflict hvararg hconflict

/-- A round goes on in the same way with any start of the only candidate, if the word is a
    start of it. -/
theorem play_of_completion {l : List (CmdElement F)} {s : CString} (hp : p ≠ []) (hpq : p <+: q)
    (hqs : q <+: s) (hs : candidates (some p) i l = [s]) :
    (cmdRound completionClass q i).play l = .go (l.filter fun e => HasKeyword s (e.item i)) := by
  obtain ⟨-, e, he, hkeyword⟩ := mem_candidates.1 (hs ▸ List.mem_singleton_self s)
  obtain ⟨d, hd, hkey, rfl⟩ := hkeyword
  have hlive : ∃ e ∈ l, HasKeyword d.cmd (e.item i) := ⟨e, he, d, hd, hkey, rfl⟩
  by_cases hq : q = d.cmd
  · rw [hq]
    exact play_of_hasKeyword completionClass_classifies hlive
  · refine play_of_abbreviation (hpq.ne_nil hp) hq hkey hqs hlive fun e' he' d' hd' hkey' hqd => ?_
    have hmem : d'.cmd ∈ candidates (some p) i l :=
      mem_candidates.2 ⟨hpq.trans hqd, e', he', d', hd', hkey', rfl⟩
    exact List.mem_singleton.1 (hs ▸ hmem)

/-! ## Completing, then executing -/

/-- `Enter` finds the element it would have found before the completion. -/
theorem cmdFindElement_of_completion (hp : p ≠ []) (hpq : p <+: q)
    (hmatched : (cmdCompleteCommand table ws (some p)).2 = some matched)
    (hq : IsCommonPrefix matched q)
    (h : cmdFindElement (filterBy completionClass) table (ws ++ p :: rest) = .ok e) :
    cmdFindElement (filterBy completionClass) table (ws ++ q :: rest) = .ok e := by
  rcases hloop : cmdCompleteLoop ws 0 (vectorCopy table) with ret | v
  · rw [cmdCompleteCommand, completeCandidates, hloop] at hmatched
    cases hmatched
  have hcompletion : IsCompletion (some p) (candidates (some p) ws.length v.reduceOption)
      (cmdCompleteCommand table ws (some p)) := isCompletion_cmdCompleteCommand hloop
  have hrun := cmdCompleteLoop_run hloop
  rw [reduceOption_vectorCopy] at hrun
  generalize v.reduceOption = l at hcompletion hrun
  have hlen : (ws ++ p :: rest).length = (ws ++ q :: rest).length := by simp
  rw [cmdFindElement_eq, cmdRounds_append, run_append, Nat.zero_add] at h ⊢
  rw [hlen] at h
  rcases hc : candidates (some p) ws.length l with _ | ⟨s, _ | ⟨t, c⟩⟩
  · rw [hcompletion.empty hc] at hmatched
    cases hmatched
  · -- The rounds of the word before, and of the word after, keep the same elements.
    rw [hcompletion.single s hc] at hmatched
    have hqs : q <+: s := hq s (Option.some.inj hmatched ▸ List.mem_singleton_self s)
    rcases hrun with hgo | ⟨ret, hfail⟩ | rfl
    · rw [hgo] at h ⊢
      dsimp only at h ⊢
      rw [cmdRounds, run, play_of_completion hp List.prefix_rfl (hpq.trans hqs) hc] at h
      rw [cmdRounds, run, play_of_completion hp hpq hqs hc]
      exact h
    · rw [hfail] at h ⊢
      exact h
    · cases hc
  · obtain ⟨lcp, hlcp, hr⟩ := hcompletion.several (by simp [hc])
    simp only [hr, Option.any_some, decide_eq_true_eq] at hmatched
    split_ifs at hmatched with hlong
    · -- The word is none of the candidates, so that the line is ambiguous.
      have hmem : p ∉ candidates (some p) ws.length l := fun hmem =>
        hlong.not_ge (hlcp.isCommonPrefix p hmem).length_le
      rcases hrun with hgo | ⟨ret, hfail⟩ | rfl
      · rw [hgo] at h
        dsimp only at h
        rw [cmdRounds, run, play_of_candidates hmem (by simp [hc])] at h
        cases h
      · rw [hfail] at h ⊢
        exact h
      · cases hc
    · -- The word is left as it is.
      obtain rfl := Option.some.inj hmatched
      have hpq' : q.length ≤ p.length := (hlcp.longest q hq).length_le.trans (not_lt.1 hlong)
      rw [← hlen] at h ⊢
      rwa [← hpq.eq_of_length_le hpq']

/-- No match is returned twice. -/
theorem nodup_cmdCompleteCommand (table : List (CmdElement F)) (ws : List CString)
    (command : Option CString) : ((cmdCompleteCommand table ws command).2.getD []).Nodup := by
  rcases hloop : cmdCompleteLoop ws 0 (vectorCopy table) with ret | v
  · rw [cmdCompleteCommand, completeCandidates, hloop]
    exact List.nodup_nil
  · have hcompletion : IsCompletion command (candidates command ws.length v.reduceOption)
        (cmdCompleteCommand table ws command) := isCompletion_cmdCompleteCommand hloop
    have hnodup := candidates_nodup command ws.length v.reduceOption
    generalize candidates command ws.length v.reduceOption = c at hcompletion hnodup
    rcases c with _ | ⟨s, _ | ⟨t, c⟩⟩
    · rw [hcompletion.empty rfl]
      exact List.nodup_nil
    · rw [hcompletion.single s rfl]
      exact hnodup
    · obtain ⟨lcp, -, hr⟩ := hcompletion.several (by simp)
      rw [hr]
      split_ifs
      · exact List.nodup_singleton lcp
      · exact hnodup

/-- The current word is not empty. -/
theorem ne_nil_of_completionInput (h : completionInput line = some (ws, some p)) : p ≠ [] := by
  rw [completionInput] at h
  obtain ⟨vline, hvline, heq⟩ := Option.map_eq_some_iff.1 h
  split_ifs at heq
  · cases heq
  · have hmem : p ∈ vline := List.mem_of_getLast? (Prod.mk.inj heq).2
    rw [cmdMakeStrvec_eq] at hvline
    obtain ⟨c, -, hwords⟩ := Option.bind_eq_some_iff.1 hvline
    split_ifs at hwords
    · rw [← Option.some.inj hwords, lineWords, List.mem_filter, decide_eq_true_eq] at hmem
      exact hmem.2

/-- Readline gets the matches of the line, each of them once. Where it puts a common prefix
    of these in place of the current word, a line that selects an element still selects it,
    and with the same words as arguments. -/
theorem selects_of_completionMatches (hnode : node ≠ .auth ∧ node ≠ .authEnable)
    (hline : completionInput line = some (ws, some p)) (htable : sh.cmdvec node = some table) :
    ∃ matched, matched.Nodup ∧
      (∀ c fuel, matched.length < fuel →
        (completionMatches sh node line fuel 0 c).map Prod.fst = some matched) ∧
      ∀ q, matched ≠ [] → p <+: q → IsCommonPrefix matched q → ∀ rest e argv,
        (cmdExecuteCommand table (ws ++ p :: rest)).Selects e argv →
          argv = consumed e.strvec 0 (ws ++ p :: rest) ∧
          (cmdExecuteCommand table (ws ++ q :: rest)).Selects e
            (consumed e.strvec 0 (ws ++ q :: rest)) := by
  refine ⟨(cmdCompleteCommand table ws (some p)).2.getD [],
    nodup_cmdCompleteCommand table ws (some p),
    fun c fuel hfuel => completionMatches_eq hnode hline htable c hfuel, ?_⟩
  intro q hne hpq hq rest e argv h
  rcases hmatched : (cmdCompleteCommand table ws (some p)).2 with _ | matched
  · exact absurd (hmatched ▸ rfl) hne
  rw [hmatched, Option.getD_some] at hq
  obtain ⟨hfind, hargs⟩ := cmdExecuteWith_selects.1 h
  have hlen : (ws ++ q :: rest).length = (ws ++ p :: rest).length := by simp
  -- The line with the common prefix has as many words, so that its arguments fit too.
  obtain ⟨argv', hargs'⟩ := exists_cmdArgLoop hlen rfl hargs
  refine ⟨cmdArgLoop_ok (i := 0) hargs, ?_⟩
  rw [← List.nil_append (consumed _ _ _), ← cmdArgLoop_ok (i := 0) hargs']
  exact cmdExecuteWith_selects.2 ⟨cmdFindElement_of_completion (ne_nil_of_completionInput hline)
    hpq hmatched hq hfind, hargs'⟩

/-- The completion of `make i`, through the generator. -/
theorem selects_of_completionMatches_make :
    ∃ matched, matched.Nodup ∧
      (∀ c fuel, matched.length < fuel →
        (completionMatches (F := ToolFunc) (W := Unit)
          ⟨fun _ => some projectNode, fun _ _ _ _ _ => none, fun _ _ => none⟩ .project
          "make i".toList fuel 0 c).map Prod.fst = some matched) ∧
      ∀ q, matched ≠ [] → "i".toList <+: q → IsCommonPrefix matched q → ∀ rest e argv,
        (cmdExecuteCommand projectNode (words ["make"] ++ "i".toList :: rest)).Selects e argv →
          argv = consumed e.strvec 0 (words ["make"] ++ "i".toList :: rest) ∧
          (cmdExecuteCommand projectNode (words ["make"] ++ q :: rest)).Selects e
            (consumed e.strvec 0 (words ["make"] ++ q :: rest)) :=
  selects_of_completionMatches (by decide) (by decide +kernel) rfl

end Mksh
