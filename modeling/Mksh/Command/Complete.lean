import Mathlib.Data.List.Nodup
import Mksh.Command.Agree
import Mksh.Command.Help

/-!
# Completion, description and execution agree

* `?` shows the keywords that `Tab` does, in order and without repetition
  (`cmdDescribeCommand_keywords`): the two collect them in different ways, one
  after filtering by the current word, but an alternative that the filter drops
  would not be a candidate.
* Completing a word never changes what a line does
  (`cmdExecuteCommand_of_fullMatch`): the only candidate is the keyword that all
  the elements kept for the word have, and these are the ones kept for it.
-/

namespace Mksh

open CString Elimination

variable {F : Type*} {table : List (CmdElement F)} {ws : List CString}

/-! ## Entries -/

/-- A variable, an option or a vararg completes to nothing. -/
theorem cmdEntryFunction_eq_none {src : Option CString} {dst : CString} (h : ¬IsKeyword dst) :
    cmdEntryFunction src dst = none := by
  have hk : cmdOption dst = false → cmdVariable dst = false → ¬cmdVararg dst = false :=
    fun ho hv ha => h ⟨ho, hv, ha⟩
  unfold cmdEntryFunction
  rw [if_pos]
  simp only [Bool.or_eq_true]
  cases ho : cmdOption dst <;> cases hv : cmdVariable dst <;> simp_all

/-- A keyword completes every word that starts it. -/
theorem cmdEntryFunction_some {src dst : CString} (h : IsKeyword dst) :
    cmdEntryFunction (some src) dst = if src <+: dst then some dst else none := by
  obtain ⟨hr, -, -, h4, h4p⟩ := h.not_address
  simp [cmdEntryFunction, h.1, h.2.1, h.2.2, hr, h4, h4p]

/-- A candidate is a keyword with the current word as a prefix. -/
theorem cmdEntryFunction_some_iff {src dst str : CString} :
    cmdEntryFunction (some src) dst = some str ↔ IsKeyword dst ∧ src <+: dst ∧ dst = str := by
  by_cases h : IsKeyword dst
  · rw [cmdEntryFunction_some h]
    by_cases hp : src <+: dst <;> simp [h, hp]
  · rw [cmdEntryFunction_eq_none h]
    simp [h]

/-- For a keyword, `?` goes by the same test. -/
theorem cmdEntryFunctionDesc_of_isKeyword {src : Option CString} {dst : CString}
    (h : IsKeyword dst) : cmdEntryFunctionDesc src dst = cmdEntryFunction src dst := by
  obtain ⟨hr, h6, h6p, h4, h4p⟩ := h.not_address
  simp [cmdEntryFunctionDesc, cmdEntryFunction, h.1, h.2.1, h.2.2, hr, h6, h6p, h4, h4p]

/-- The text shown in the help is the one of the descriptor. -/
theorem cmdEntryFunctionDesc_eq {src : Option CString} {dst str : CString}
    (h : cmdEntryFunctionDesc src dst = some str) : str = dst := by
  revert h
  unfold cmdEntryFunctionDesc
  split_ifs <;> cases src <;> simp +contextual [eq_comm]

/-! ## Description -/

/-- The keywords of a description. -/
def keywords (matchvec : List Desc) : List CString :=
  (matchvec.map Desc.cmd).filter fun s => IsKeyword s

/-- The keywords of two lists of descriptors are those of each. -/
theorem keywords_append (m m' : List Desc) : keywords (m ++ m') = keywords m ++ keywords m' := by
  rw [keywords, List.map_append, List.filter_append, ← keywords, ← keywords]

/-- Adding an alternative to a description, unless there is one like it. -/
theorem keywords_add (m : List Desc) (d : Desc) :
    keywords (if descUniqueString m d.cmd then m else m ++ [d]) =
      if IsKeyword d.cmd ∧ cmdUniqueString (keywords m) d.cmd then keywords m ++ [d.cmd]
      else keywords m := by
  -- Only a keyword is compared with keywords: the help may show placeholders besides.
  by_cases hk : IsKeyword d.cmd
  · have hmem : cmdUniqueString (keywords m) d.cmd ↔ ¬descUniqueString m d.cmd := by
      simp only [cmdUniqueString, descUniqueString, keywords, List.all_eq_true, List.any_eq_true,
        List.mem_filter, List.mem_map, decide_eq_true_eq, strcmp_eq_zero, ne_eq, not_exists,
        not_and]
      constructor
      · intro h a ha hae
        exact h _ ⟨⟨a, ha, rfl⟩, hae ▸ hk⟩ hae
      · intro h s hs hse
        obtain ⟨⟨a, ha, rfl⟩, -⟩ := hs
        exact h a ha hse
    by_cases hu : descUniqueString m d.cmd
    · rw [if_pos hu, if_neg fun h => hmem.1 h.2 hu]
    · rw [if_neg hu, if_pos ⟨hk, hmem.2 hu⟩, keywords_append]
      simp [keywords, hk]
  · have hnot : ¬(IsKeyword d.cmd ∧ cmdUniqueString (keywords m) d.cmd) := fun h => hk h.1
    rw [if_neg hnot]
    split_ifs
    · rfl
    · rw [keywords_append]
      simp [keywords, hk]

/-- The descriptions of an item add the keywords that its completions do. -/
theorem keywords_describeDescvec (command : Option CString) (descvec matchvec : List Desc) :
    keywords (describeDescvec command descvec matchvec) =
      completeDescvec command descvec (keywords matchvec) := by
  induction descvec generalizing matchvec with
  | nil => rfl
  | cons d descvec ih =>
    rw [describeDescvec, completeDescvec]
    by_cases hk : IsKeyword d.cmd
    · have hdesc : cmdEntryFunctionDesc command d.cmd = cmdEntryFunction command d.cmd :=
        cmdEntryFunctionDesc_of_isKeyword hk
      cases hs : cmdEntryFunctionDesc command d.cmd with
      | none =>
        rw [← hdesc, hs]
        exact ih matchvec
      | some s =>
        obtain rfl := cmdEntryFunctionDesc_eq hs
        rw [← hdesc, hs]
        dsimp only
        rw [ih, keywords_add]
        simp only [hk, true_and]
    · -- Not a keyword: no candidate, and no keyword in the description.
      rw [cmdEntryFunction_eq_none hk]
      cases hs : cmdEntryFunctionDesc command d.cmd with
      | none => exact ih matchvec
      | some s =>
        obtain rfl := cmdEntryFunctionDesc_eq hs
        dsimp only
        rw [ih, keywords_add, if_neg fun h => hk h.1]

/-- An item without an alternative that matches has no candidates. -/
theorem completeDescvec_of_noMatch {w : CString} {descvec : List Desc}
    (h : itemClass (completionClass w) descvec = .noMatch) (matchvec : List CString) :
    completeDescvec (some w) descvec matchvec = matchvec := by
  induction descvec with
  | nil => rfl
  | cons d descvec ih =>
    rw [itemClass_eq_noMatch_iff] at h
    have hd : cmdEntryFunction (some w) d.cmd = none := by
      by_cases hk : IsKeyword d.cmd
      · have hc := h d List.mem_cons_self
        rw [completionClass_of_isKeyword hk] at hc
        rw [cmdEntryFunction_some hk, if_neg]
        intro hp
        rw [if_pos hp] at hc
        split_ifs at hc
      · exact cmdEntryFunction_eq_none hk
    rw [completeDescvec, hd]
    exact ih (itemClass_eq_noMatch_iff.2 fun d' hd' => h d' (List.mem_cons_of_mem d hd'))

/-- Without a last word the help lists the completions of the empty word. -/
theorem keywords_describeVector_none {index : ℕ} {v : CmdVector F} {matchvec m : List Desc}
    (h : describeVector none index v matchvec = some m) :
    keywords m = completeVector none index v (keywords matchvec) := by
  induction v generalizing matchvec with
  | nil =>
    cases h
    rfl
  | cons slot v ih =>
    rcases slot with _ | e
    · exact ih h
    rw [describeVector, if_neg (by simp)] at h
    rw [completeVector]
    by_cases hcr : index = e.strvec.length
    · -- The element is complete: its `<cr>` is not a keyword.
      rw [if_pos ⟨rfl, hcr⟩] at h
      rw [List.getElem?_eq_none hcr.ge, ih h, keywords_add,
        if_neg fun hk => absurd hk.1 (by decide)]
    · rw [if_neg fun hn => hcr hn.2] at h
      cases hd : e.strvec[index]? with
      | none =>
        rw [hd] at h
        cases h
      | some descvec =>
        rw [hd] at h
        rw [ih h, keywords_describeDescvec]

/-- With a last word, the help over the filtered elements lists its completions. -/
theorem keywords_describeVector_some {w : CString} {index : ℕ} {v : CmdVector F}
    {matchvec m : List Desc} (t : MatchType)
    (h : describeVector (some w) index (filterVector (completionClass w) index v t).2 matchvec =
      some m) : keywords m = completeVector (some w) index v (keywords matchvec) := by
  induction v generalizing matchvec t with
  | nil =>
    cases h
    rfl
  | cons slot v ih =>
    rcases slot with _ | e
    · exact ih t h
    rw [filterVector] at h
    rw [completeVector]
    cases hd : e.strvec[index]? with
    | none =>
      rw [hd] at h
      exact ih t h
    | some descvec =>
      rw [hd] at h
      simp only [filterDescvec_eq, Nat.zero_add] at h
      by_cases hno : itemClass (completionClass w) descvec = .noMatch
      · -- Dropped by the filter: it has no candidates.
        rw [if_pos (length_matched_eq_zero_iff.2 hno)] at h
        dsimp only
        rw [completeDescvec_of_noMatch hno]
        exact ih _ h
      · have hlt : index < e.strvec.length := (List.getElem?_eq_some_iff.1 hd).1
        rw [if_neg (fun h0 => hno (length_matched_eq_zero_iff.1 h0)), describeVector,
          if_neg (by omega), if_neg (by simp), hd] at h
        dsimp only
        rw [← keywords_describeDescvec]
        exact ih _ h

/-- Where the loop of `?` goes through the preceding words, so does that of
    `Tab`, and with the same vector. -/
theorem cmdCompleteLoop_of_describe {index : ℕ} {v v' : CmdVector F}
    (h : cmdDescribeLoop ws index v = .words v') : cmdCompleteLoop ws index v = .ok v' := by
  induction ws generalizing index v with
  | nil => exact congrArg Except.ok (DescribeEnd.words.inj h)
  | cons w ws ih =>
    rw [cmdDescribeLoop] at h
    rw [cmdCompleteLoop]
    dsimp only at h ⊢
    split_ifs at h with hv h1 h2
    rw [if_neg h1]
    exact ih h

/-- The candidates of one item are added without repetition. -/
theorem completeDescvec_nodup {command : Option CString} {descvec : List Desc}
    {matchvec : List CString} (h : matchvec.Nodup) :
    (completeDescvec command descvec matchvec).Nodup := by
  induction descvec generalizing matchvec with
  | nil => exact h
  | cons d descvec ih =>
    rw [completeDescvec]
    cases hs : cmdEntryFunction command d.cmd with
    | none => exact ih h
    | some s =>
      refine ih ?_
      split_ifs with hu
      · refine List.nodup_append.2 ⟨h, List.nodup_singleton s, fun a ha b hb => ?_⟩
        rw [List.mem_singleton.1 hb]
        simpa using List.all_eq_true.1 hu a ha
      · exact h

/-- So are those of all elements. -/
theorem completeVector_nodup {command : Option CString} {index : ℕ} {v : CmdVector F}
    {matchvec : List CString} (h : matchvec.Nodup) :
    (completeVector command index v matchvec).Nodup := by
  induction v generalizing matchvec with
  | nil => exact h
  | cons slot v ih =>
    rcases slot with _ | e
    · exact ih h
    rw [completeVector]
    cases e.strvec[index]? with
    | none => exact ih h
    | some descvec => exact ih (completeDescvec_nodup h)

/-- `?` and `Tab` show the same keywords, in order and without repetition. -/
theorem cmdDescribeCommand_keywords {command : Option CString} {matchvec : List Desc}
    (h : cmdDescribeCommand table ws command = .success matchvec) :
    completeCandidates table ws command = .ok (keywords matchvec) ∧ (keywords matchvec).Nodup := by
  rw [cmdDescribeCommand] at h
  cases hl : cmdDescribeLoop ws 0 (vectorCopy table) with
  | error status => rw [hl] at h; cases h
  | vararg v =>
    rw [hl] at h
    dsimp only at h
    generalize describeVararg v [] = r at h
    rcases r with _ | m
    · cases h
    · cases h
  | words v =>
    rw [hl] at h
    dsimp only at h
    -- The help vector is made from the elements that are filtered once more, by the last word.
    have hkey : keywords matchvec = completeVector command ws.length v [] := by
      cases hm : describeVector command ws.length (filterCurrent command v ws.length) [] with
      | none => rw [hm] at h; cases h
      | some m =>
        have hmm : m = matchvec := by
          rw [hm] at h
          cases m with
          | nil => cases h
          | cons d m => exact Description.success.inj h
        subst hmm
        cases command with
        | none => exact keywords_describeVector_none hm
        | some w => exact keywords_describeVector_some _ hm
    rw [completeCandidates, cmdCompleteLoop_of_describe hl, hkey]
    exact ⟨rfl, completeVector_nodup List.nodup_nil⟩

/-- The candidates and the help of the line `make i`. -/
theorem cmdDescribeCommand_keywords_make :
    completeCandidates projectNode (words ["make"]) (some "i".toList) =
        .ok (keywords [⟨"install".toList, some "Export the binary files.".toList⟩,
          ⟨"WORD".toList, some "Argument of make.".toList⟩]) ∧
      (keywords [⟨"install".toList, some "Export the binary files.".toList⟩,
        ⟨"WORD".toList, some "Argument of make.".toList⟩]).Nodup :=
  cmdDescribeCommand_keywords (by decide +kernel)

/-! ## Completion -/

/-- A candidate was there before, or one of the alternatives completes to it. -/
theorem mem_completeDescvec {command : Option CString} {descvec : List Desc}
    {matchvec : List CString} {s : CString} : s ∈ completeDescvec command descvec matchvec ↔
      s ∈ matchvec ∨ ∃ d ∈ descvec, cmdEntryFunction command d.cmd = some s := by
  induction descvec generalizing matchvec with
  | nil => simp [completeDescvec]
  | cons d descvec ih =>
    rw [completeDescvec, List.exists_mem_cons_iff]
    cases hd : cmdEntryFunction command d.cmd with
    | none => simp [ih]
    | some t =>
      dsimp only
      rw [ih, ← or_assoc]
      refine or_congr_left ?_
      split_ifs with hu
      · simp [eq_comm]
      · -- A candidate that is not new is there.
        have hmem : t ∈ matchvec := by simpa [cmdUniqueString] using hu
        refine ⟨.inl, fun h => h.elim id fun heq => ?_⟩
        rwa [← Option.some.inj heq]

/-- The candidates, in terms of the live elements. -/
theorem mem_completeVector {command : Option CString} {index : ℕ} {v : CmdVector F}
    {matchvec : List CString} {s : CString} : s ∈ completeVector command index v matchvec ↔
      s ∈ matchvec ∨ ∃ e ∈ v.reduceOption, ∃ d ∈ e.item index,
        cmdEntryFunction command d.cmd = some s := by
  induction v generalizing matchvec with
  | nil => simp [completeVector]
  | cons slot v ih =>
    rcases slot with _ | e
    · rw [completeVector, List.reduceOption_cons_of_none, ih]
    rw [completeVector, List.reduceOption_cons_of_some, List.exists_mem_cons_iff, CmdElement.item]
    cases e.strvec[index]? with
    | none => simp [ih]
    | some descvec =>
      dsimp only
      rw [ih, mem_completeDescvec, or_assoc, Option.getD_some]

/-- Without live elements, the loop of `Tab` goes on without any. -/
theorem cmdCompleteLoop_of_nil {index : ℕ} {v v' : CmdVector F}
    (h : cmdCompleteLoop ws index v = .ok v') (hv : v.reduceOption = []) :
    v'.reduceOption = [] := by
  induction ws generalizing index v with
  | nil => rwa [← Except.ok.inj h]
  | cons w ws ih =>
    have hfilter : (filterBy completionClass w v index).2.reduceOption = [] := by
      rw [reduceOption_filterBy, matching, hv, List.filter_nil]
    rw [cmdCompleteLoop] at h
    dsimp only at h
    split_ifs at h
    refine ih h ?_
    rw [isCmdAmbiguous, reduceOption_ambiguousVector]
    · rw [cmdFilterByCompletion, hfilter, List.filter_nil]
    · rw [cmdFilterByCompletion, hfilter]
      exact conflict_nil _ _ _

/-- The loop of `Tab` plays the rounds of the preceding words, unless one fails,
    or a vararg drops all the elements. -/
theorem cmdCompleteLoop_run {index : ℕ} {v v' : CmdVector F}
    (h : cmdCompleteLoop ws index v = .ok v') :
    run (cmdRounds completionClass index ws) v.reduceOption = .go v'.reduceOption ∨
      (∃ ret, run (cmdRounds completionClass index ws) v.reduceOption = .fail ret) ∨
      v'.reduceOption = [] := by
  induction ws generalizing index v with
  | nil =>
    obtain rfl := Except.ok.inj h
    exact .inl rfl
  | cons w ws ih =>
    rw [cmdCompleteLoop] at h
    dsimp only [cmdFilterByCompletion] at h
    rw [filterBy_fst, isCmdAmbiguous_fst] at h
    rw [cmdRounds, run]
    by_cases hv : topClass completionClass w index v.reduceOption = .varargMatch
    · -- No alternative hits for a vararg.
      rw [hv] at h
      split_ifs at h
      have hnil : liveHits w .varargMatch index (matching completionClass w index v.reduceOption) =
          [] := by
        rw [List.eq_nil_iff_forall_not_mem]
        intro s hs
        obtain ⟨_, _, _, hh⟩ := mem_liveHits.1 hs
        cases hh
      refine .inr (.inr (cmdCompleteLoop_of_nil h ?_))
      rw [isCmdAmbiguous, reduceOption_ambiguousVector, List.filter_eq_nil_iff]
      · intro e he
        simp [hitsAt, hits]
      · rw [reduceOption_filterBy, hnil]
        exact conflict_nil _ _ _
    cases hc : roundConflict completionClass w index v.reduceOption with
    | some ret =>
      rw [play_of_conflict hv hc]
      exact .inr (.inl ⟨_, rfl⟩)
    | none =>
      rw [hc] at h
      rw [play_of_agree hv hc]
      exact ih h

/-- A round on an abbreviation, of a keyword that is the only one among those of
    the live elements, keeps the elements that have it as a keyword. -/
theorem play_of_abbreviation {p s : CString} {i : ℕ} {l : List (CmdElement F)} (hp : p ≠ [])
    (hps : p ≠ s) (hs : IsKeyword s) (hpre : p <+: s) (h : ∃ e ∈ l, HasKeyword s (e.item i))
    (hone : ∀ e ∈ l, ∀ d ∈ e.item i, IsKeyword d.cmd → p <+: d.cmd → d.cmd = s) :
    (cmdRound completionClass p i).play l = .go (l.filter fun e => HasKeyword s (e.item i)) := by
  have hcls : completionClass p s = .partlyMatch := by
    rw [completionClass_of_isKeyword hs, if_pos hpre, if_neg hps]
  have hclass {e : CmdElement F} (hk : HasKeyword s (e.item i)) :
      .partlyMatch ≤ classAt (completionClass p) i e := by
    obtain ⟨d, hd, -, rfl⟩ := hk
    exact hcls ▸ cls_le_classAt hd
  -- No keyword is the abbreviation itself, so the top class is `partlyMatch`.
  have htop : topClass completionClass p i l = .partlyMatch := by
    obtain ⟨e, he, hk⟩ := h
    have hle := (hclass hk).trans (classAt_le_topClass he)
    cases ht : topClass completionClass p i l with
    | partlyMatch => rfl
    | exactMatch =>
      obtain ⟨e', he', d, hd, hdc, -⟩ := exists_cls_eq_topClass (ht.trans_ne (by decide))
      obtain ⟨hkey, rfl⟩ := completionClass_classifies.exact.1 (hdc.trans ht)
      exact absurd (hone e' he' d hd hkey (List.prefix_refl _)) hps
    | _ =>
      rw [ht] at hle
      exact absurd hle (by decide)
  -- What hits is the keyword.
  have hhits {e : CmdElement F} (he : e ∈ l) {d : Desc} (hd : d ∈ e.item i) :
      hits p .partlyMatch d.cmd ↔ IsKeyword d.cmd ∧ d.cmd = s := by
    simp only [hits, Bool.and_eq_true, decide_eq_true_eq, strncmp_length_eq_zero,
      Bool.not_eq_true', Bool.or_eq_false_iff]
    constructor
    · rintro ⟨hov, hpd⟩
      have hkey : IsKeyword d.cmd := ⟨hov.1, hov.2, hs.cmdVararg_of_prefix hp hpre hpd⟩
      exact ⟨hkey, hone e he d hd hkey hpd⟩
    · rintro ⟨hkey, rfl⟩
      exact ⟨⟨hkey.1, hkey.2.1⟩, hpre⟩
  rw [Round.play_go_iff]
  refine ⟨?_, ?_, List.filter_congr fun e he => ?_⟩
  · rw [halts_iff, htop]
    decide
  · rw [fail_eq_none_iff, roundConflict, htop, conflict, if_neg (by simp [isPartial]), if_neg]
    rintro ⟨-, hag⟩
    refine hag fun a ha b hb => ?_
    rw [Option.toList_none, List.nil_append] at ha hb
    obtain ⟨e₁, he₁, ⟨d₁, hd₁, rfl⟩, hh₁⟩ := mem_liveHits.1 ha
    obtain ⟨e₂, he₂, ⟨d₂, hd₂, rfl⟩, hh₂⟩ := mem_liveHits.1 hb
    rw [((hhits (List.mem_of_mem_filter he₁) hd₁).1 hh₁).2,
      ((hhits (List.mem_of_mem_filter he₂) hd₂).1 hh₂).2]
  · rw [Bool.eq_iff_iff, decide_eq_true_iff, keep_iff, htop]
    constructor
    · intro hk
      refine ⟨fun hno => absurd (hno ▸ hclass hk) (by decide), .inr ?_⟩
      obtain ⟨d, hd, hkey, hds⟩ := hk
      exact ⟨d, hd, (hhits he hd).2 ⟨hkey, hds⟩⟩
    · rintro ⟨-, hk⟩
      obtain ⟨d, hd, hhit⟩ := hk.resolve_left (by decide)
      obtain ⟨hkey, hds⟩ := (hhits he hd).1 hhit
      exact ⟨d, hd, hkey, hds⟩

/-! ## Execution -/

/-- The outcomes are the same, up to the arguments, but for their number. -/
inductive Outcome.SameArgc : Outcome F → Outcome F → Prop
  | returns (ret : ℤ) : SameArgc (.returns ret) (.returns ret)
  | daemon (e : CmdElement F) {argv argv' : List CString} : argv.length = argv'.length →
      SameArgc (.daemon e argv) (.daemon e argv')
  | call (e : CmdElement F) {argv argv' : List CString} : argv.length = argv'.length →
      SameArgc (.call e argv) (.call e argv')
  | fault (f : Fault) : SameArgc (.fault f) (.fault f)

/-- The loop collecting the arguments does not look at the words. -/
inductive ArgResult.SameArgc : ArgResult → ArgResult → Prop
  | ok {argv argv' : List CString} : argv.length = argv'.length → SameArgc (.ok argv) (.ok argv')
  | error (ret : ℤ) : SameArgc (.error ret) (.error ret)
  | fault (f : Fault) : SameArgc (.fault f) (.fault f)

/-- The count of arguments depends on the number of words only. -/
theorem cmdArgLoop_sameArgc (strvec : List (List Desc)) {vline vline' : List CString}
    (h : vline.length = vline'.length) (i : ℕ) (varflag : Bool) {argv argv' : List CString}
    (hargv : argv.length = argv'.length) :
    (cmdArgLoop strvec vline i varflag argv).SameArgc
      (cmdArgLoop strvec vline' i varflag argv') := by
  induction vline generalizing vline' i varflag argv argv' with
  | nil =>
    obtain rfl := List.length_eq_zero_iff.1 h.symm
    exact .ok hargv
  | cons w vline ih =>
    rcases vline' with _ | ⟨w', vline'⟩
    · cases h
    rw [cmdArgLoop, cmdArgLoop]
    cases argItem strvec i varflag with
    | none => exact .fault _
    | some p =>
      obtain ⟨isArg, varflag'⟩ := p
      dsimp only
      rw [hargv]
      -- Both lines hand over their words at the same places, so that the counts stay equal.
      have hnext : (if isArg then argv ++ [w] else argv).length =
          (if isArg then argv' ++ [w'] else argv').length := by
        split_ifs
        · rw [List.length_append, List.length_append, hargv, List.length_singleton,
            List.length_singleton]
        · exact hargv
      generalize (if isArg then argv ++ [w] else argv) = a,
        (if isArg then argv' ++ [w'] else argv') = a' at hnext ⊢
      rw [hnext]
      split_ifs
      · exact .fault _
      · exact .error _
      · exact ih (Nat.succ.inj h) (i + 1) varflag' hnext

/-- Lines of the same length that find the same element do the same with it. -/
theorem cmdExecuteWith_sameArgc {filter : Filter F} {vline vline' : List CString}
    (h : vline.length = vline'.length)
    (hfind : cmdFindElement filter table vline = cmdFindElement filter table vline') :
    (cmdExecuteWith filter table vline).SameArgc (cmdExecuteWith filter table vline') := by
  rw [cmdExecuteWith, cmdExecuteWith, hfind]
  cases cmdFindElement filter table vline' with
  | error ret => exact .returns ret
  | ok e =>
    have harg : (cmdArgLoop e.strvec vline 0 false []).SameArgc
        (cmdArgLoop e.strvec vline' 0 false []) := cmdArgLoop_sameArgc e.strvec h 0 false rfl
    dsimp only
    rw [cmdCallElement, cmdCallElement]
    generalize cmdArgLoop e.strvec vline 0 false [] = r,
      cmdArgLoop e.strvec vline' 0 false [] = r' at harg
    cases harg with
    | error ret => exact .returns ret
    | fault f => exact .fault f
    | ok hlen =>
      dsimp only
      split_ifs
      · exact .daemon e hlen
      · exact .call e hlen

/-- A full match is the only candidate. -/
theorem completeCandidates_of_fullMatch {command : Option CString} {s : CString}
    (h : cmdCompleteCommand table ws command = (cmdCompleteFullMatch, some [s])) :
    completeCandidates table ws command = .ok [s] := by
  rw [cmdCompleteCommand] at h
  cases hc : completeCandidates table ws command with
  | error ret => rw [hc] at h; cases h
  | ok matchvec =>
    rw [hc] at h
    rcases matchvec with _ | ⟨a, _ | ⟨b, matchvec⟩⟩
    · cases congrArg Prod.snd h
    · cases h
      rfl
    · -- With more candidates, the status is another one.
      have hlist : cmdCompleteListMatch ≠ cmdCompleteFullMatch := by decide
      have hlcd : cmdCompleteMatch ≠ cmdCompleteFullMatch := by decide
      cases command with
      | none => exact absurd (congrArg Prod.fst h) hlist
      | some w =>
        dsimp only at h
        split_ifs at h
        · exact absurd (congrArg Prod.fst h) hlcd
        · exact absurd (congrArg Prod.fst h) hlist

/-- Completing a word never changes what a line does. -/
theorem cmdExecuteCommand_of_fullMatch {p s : CString} (hp : p ≠ [])
    (h : cmdCompleteCommand table ws (some p) = (cmdCompleteFullMatch, some [s]))
    (rest : List CString) :
    (cmdExecuteCommand table (ws ++ p :: rest)).SameArgc
      (cmdExecuteCommand table (ws ++ s :: rest)) := by
  have hlen : (ws ++ p :: rest).length = (ws ++ s :: rest).length := by simp
  suffices hfind : cmdFindElement (filterBy completionClass) table (ws ++ p :: rest) =
      cmdFindElement (filterBy completionClass) table (ws ++ s :: rest) from
    cmdExecuteWith_sameArgc hlen hfind
  rw [cmdFindElement_eq, cmdFindElement_eq, hlen, cmdRounds_append,
    cmdRounds_append, run_append, run_append]
  refine congrArg _ ?_
  have hcand := completeCandidates_of_fullMatch h
  rw [completeCandidates] at hcand
  cases hl : cmdCompleteLoop ws 0 (vectorCopy table) with
  | error ret => rw [hl] at hcand; cases hcand
  | ok v =>
    rw [hl] at hcand
    -- The last word starts one keyword only, by whichever element it is offered.
    have hmem {t : CString} : t = s ↔ ∃ e ∈ v.reduceOption, ∃ d ∈ e.item ws.length,
        IsKeyword d.cmd ∧ p <+: d.cmd ∧ d.cmd = t := by
      have hv : t ∈ completeVector (some p) ws.length v [] ↔ _ := mem_completeVector
      rw [Except.ok.inj hcand, List.mem_singleton] at hv
      simpa [cmdEntryFunction_some_iff] using hv
    obtain ⟨e, he, d, hd, hkey, hpre, rfl⟩ := hmem.1 rfl
    have hrun := cmdCompleteLoop_run hl
    rw [reduceOption_vectorCopy] at hrun
    rcases hrun with hgo | ⟨ret, hfail⟩ | hnil
    · rw [hgo]
      dsimp only
      by_cases hps : p = d.cmd
      · rw [hps]
      -- The round of the abbreviation thus leaves what the one of the keyword does.
      have hlive : ∃ e ∈ v.reduceOption, HasKeyword d.cmd (e.item ws.length) :=
        ⟨e, he, d, hd, hkey, rfl⟩
      rw [Nat.zero_add, cmdRounds, cmdRounds, run, run,
        play_of_hasKeyword completionClass_classifies hlive,
        play_of_abbreviation hp hps hkey hpre hlive fun e' he' d' hd' hkey' hpre' =>
          hmem.2 ⟨e', he', d', hd', hkey', hpre', rfl⟩]
    · rw [hfail]
    · rw [hnil] at he
      exact absurd he List.not_mem_nil

/-- `make i` does what `make install` does. -/
theorem cmdExecuteCommand_of_fullMatch_make :
    (cmdExecuteCommand projectNode (words ["make"] ++ "i".toList :: [])).SameArgc
      (cmdExecuteCommand projectNode (words ["make"] ++ "install".toList :: [])) :=
  cmdExecuteCommand_of_fullMatch (by decide) (by decide +kernel) []

end Mksh
