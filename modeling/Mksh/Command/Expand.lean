import Mksh.Command.Fewer

/-!
# Abbreviations

A line means what it abbreviates (`expand`, in which each word that is the start of
a keyword is spelled out): the spelled out line selects what the line does, or is
refused in the same way, and is spelled out itself (`cmdFindElement_expand`).

Unlike the line, it can also stand in a configuration file: if the line selects an
element without giving it a partial address, so does the strict executor, given the
spelled out line (`strict_expand`).
-/

namespace Mksh

open CString Elimination

variable {F : Type*} {w w' s : CString} {i : ℕ} {l l' table : List (CmdElement F)}
  {e : CmdElement F} {vline argv : List CString}

/-! ## Spelling out -/

/-- The word, or the keyword of which it is the start. -/
def expandWord (w : CString) (i : ℕ) (l : List (CmdElement F)) : CString :=
  if topClass completionClass w i l = .partlyMatch then
    (liveHits w .partlyMatch i (matching completionClass w i l)).headD w
  else w

/-- The words from `i` on, spelled out as long as the elimination goes on. -/
def expandFrom : ℕ → List CString → List (CmdElement F) → List CString
  | _, [], _ => []
  | i, w :: ws, l =>
    match (cmdRound completionClass w i).play l with
    | .go l' => expandWord w i l :: expandFrom (i + 1) ws l'
    | _ => w :: ws

/-- The line, spelled out. -/
def expand (table : List (CmdElement F)) (vline : List CString) : List CString :=
  expandFrom 0 vline table

/-- Spelling a line out keeps the number of words. -/
theorem length_expandFrom (i : ℕ) (vline : List CString) (l : List (CmdElement F)) :
    (expandFrom i vline l).length = vline.length := by
  induction vline generalizing i l with
  | nil => rfl
  | cons w ws ih =>
    rw [expandFrom]
    rcases (cmdRound completionClass w i).play l with l' | l' | ret
    · exact congrArg (· + 1) (ih (i + 1) l')
    · rfl
    · rfl

/-- Abbreviations hit the keywords that they start. -/
theorem hits_partlyMatch : hits w .partlyMatch s ↔
    (cmdOption s || cmdVariable s) = false ∧ w <+: s := by
  rw [hits, Bool.and_eq_true, Bool.not_eq_true', decide_eq_true_eq, strncmp_length_eq_zero]

/-- A keyword spelled out hits itself. -/
theorem hits_exactMatch : hits w .exactMatch s ↔
    (cmdOption s || cmdVariable s) = false ∧ w = s := by
  rw [hits, Bool.and_eq_true, Bool.not_eq_true', decide_eq_true_eq, strcmp_eq_zero]

/-- A word that is the start of a keyword is the start of just one. -/
theorem expandWord_spec (ht : topClass completionClass w i l = .partlyMatch)
    (hf : (cmdRound completionClass w i).fail l = none) :
    IsKeyword (expandWord w i l) ∧ w <+: expandWord w i l ∧
      (∃ e ∈ l, ∃ d ∈ e.item i, d.cmd = expandWord w i l) ∧
      ∀ e ∈ l, ∀ d ∈ e.item i, hits w .partlyMatch d.cmd →
        classAt (completionClass w) i e ≠ .noMatch → d.cmd = expandWord w i l := by
  have htop : topClass completionClass w i l ≠ .noMatch := by
    rw [ht]
    decide
  -- The alternative of the top class is a keyword, and all the hits are the same.
  obtain ⟨a, ha, d, hd, hdt, hat⟩ := exists_cls_eq_topClass htop
  have hkeyword := completionClass_spec w d.cmd
  rw [hdt, ht] at hkeyword
  obtain ⟨hkey, hpre⟩ := hkeyword
  have hmem {e : CmdElement F} (he : e ∈ l) {d : Desc} (hd : d ∈ e.item i)
      (hhit : hits w .partlyMatch d.cmd) (hne : classAt (completionClass w) i e ≠ .noMatch) :
      d.cmd ∈ liveHits w .partlyMatch i (matching completionClass w i l) :=
    mem_liveHits.2 ⟨e, List.mem_filter.2 ⟨he, decide_eq_true hne⟩, ⟨d, hd, rfl⟩, hhit⟩
  have hhit : hits w .partlyMatch d.cmd :=
    hits_partlyMatch.2 ⟨by simp [hkey.1, hkey.2.1], hpre⟩
  have hd' := hmem ha hd hhit (hat ▸ htop)
  have hx : topClass completionClass w i l ≠ .extendMatch ∧
      ¬IsPrefixClass (topClass completionClass w i l) := by
    rw [ht]
    exact ⟨by decide, fun h => by rcases h with h | h <;> cases h⟩
  have hsame {s : CString} (hs : s ∈ liveHits w .partlyMatch i (matching completionClass w i l)) :
      s = d.cmd := by
    refine eq_of_hits hf hx.2 hx.1 ?_ ?_
    · rwa [ht]
    · rwa [ht]
  have hword : expandWord w i l = d.cmd := by
    rw [expandWord, if_pos ht]
    generalize hl : liveHits w .partlyMatch i (matching completionClass w i l) = hs at hd' hsame
    cases hs with
    | nil => exact absurd hd' List.not_mem_nil
    | cons s hs => exact hsame List.mem_cons_self
  rw [hword]
  exact ⟨hkey, hpre, ⟨a, ha, d, hd, rfl⟩, fun e he d' hd' hhit hne => hsame (hmem he hd' hhit hne)⟩

/-- A keyword that an alternative is matches it exactly. -/
theorem topClass_of_isKeyword (hs : IsKeyword s) {d : Desc} (he : e ∈ l) (hd : d ∈ e.item i)
    (hds : d.cmd = s) : topClass completionClass s i l = .exactMatch := by
  have hexact : completionClass s d.cmd = .exactMatch :=
    completionClass_classifies.exact.2 ⟨hds ▸ hs, hds.symm⟩
  have hle : MatchType.exactMatch ≤ topClass completionClass s i l :=
    hexact ▸ (cls_le_classAt hd).trans (classAt_le_topClass he)
  generalize topClass completionClass s i l = t at hle
  cases t with
  | exactMatch => rfl
  | _ => exact absurd hle (by decide)

/-- A round that goes on does the same with the word spelled out. -/
theorem play_expandWord (h : (cmdRound completionClass w i).play l = .go l') :
    (cmdRound completionClass (expandWord w i l) i).play l = .go l' := by
  by_cases ht : topClass completionClass w i l = .partlyMatch
  swap
  · rwa [expandWord, if_neg ht]
  obtain ⟨-, hf, rfl⟩ := Round.play_go_iff.1 h
  obtain ⟨hkey, hpre, ⟨a, ha, d, hd, hda⟩, hsame⟩ := expandWord_spec ht hf
  have htop : topClass completionClass (expandWord w i l) i l = .exactMatch :=
    topClass_of_isKeyword hkey ha hd hda
  refine Round.play_go_iff.2 ⟨?_, ?_, List.filter_congr fun e he => ?_⟩
  · rw [halts_iff, htop]
    decide
  · rw [fail_eq_none_iff, roundConflict, htop]
    simp [conflict, isPartial, remembers]
  · -- Either word keeps the elements with that keyword.
    have hno : (cmdOption (expandWord w i l) || cmdVariable (expandWord w i l)) = false := by
      simp [hkey.1, hkey.2.1]
    rw [Bool.eq_iff_iff, keep_iff, keep_iff, ht, htop]
    constructor
    · rintro ⟨hne, hk⟩
      obtain ⟨d, hd, hhit⟩ := hk.resolve_left (by decide)
      have heq := hsame e he d hd hhit hne
      refine ⟨fun hno' => ?_, .inr ⟨d, hd, hits_exactMatch.2 ⟨heq ▸ hno, heq.symm⟩⟩⟩
      have hle : completionClass (expandWord w i l) d.cmd ≤ .noMatch :=
        (cls_le_classAt hd).trans_eq hno'
      rw [completionClass_classifies.exact.2 ⟨heq ▸ hkey, heq.symm⟩] at hle
      exact absurd hle (by decide)
    · rintro ⟨-, hk⟩
      obtain ⟨d, hd, hhit⟩ := hk.resolve_left (by decide)
      obtain ⟨-, heq⟩ := hits_exactMatch.1 hhit
      have hclass : completionClass w d.cmd ≠ .noMatch := by
        rw [← heq, completionClass_of_isKeyword hkey, if_pos hpre]
        split_ifs <;> decide
      refine ⟨fun hno' => hclass ?_, .inr ⟨d, hd, hits_partlyMatch.2 ⟨heq ▸ hno, heq ▸ hpre⟩⟩⟩
      exact le_bot_iff.1 ((cls_le_classAt hd).trans_eq hno')

/-! ## Lines -/

/-- The elimination is the same with the words spelled out. -/
theorem run_expandFrom (i : ℕ) (vline : List CString) (l : List (CmdElement F)) :
    run (cmdRounds completionClass i (expandFrom i vline l)) l =
      run (cmdRounds completionClass i vline) l := by
  induction vline generalizing i l with
  | nil => rfl
  | cons w ws ih =>
    rw [expandFrom]
    rcases hplay : (cmdRound completionClass w i).play l with l' | l' | ret
    · rw [cmdRounds, run, play_expandWord hplay, cmdRounds, run, hplay]
      exact ih (i + 1) l'
    · rfl
    · rfl

/-- A word spelled out is spelled out already. -/
theorem expandWord_expandWord (h : (cmdRound completionClass w i).play l = .go l') :
    expandWord (expandWord w i l) i l = expandWord w i l := by
  by_cases ht : topClass completionClass w i l = .partlyMatch
  · obtain ⟨-, hf, rfl⟩ := Round.play_go_iff.1 h
    obtain ⟨hkey, -, ⟨a, ha, d, hd, hda⟩, -⟩ := expandWord_spec ht hf
    have htop := topClass_of_isKeyword hkey ha hd hda
    rw [expandWord, if_neg]
    rw [htop]
    decide
  · have hword : expandWord w i l = w := if_neg ht
    rw [hword, hword]

/-- What is spelled out is not an abbreviation any more. -/
theorem expandFrom_expandFrom (i : ℕ) (vline : List CString) (l : List (CmdElement F)) :
    expandFrom i (expandFrom i vline l) l = expandFrom i vline l := by
  induction vline generalizing i l with
  | nil => rfl
  | cons w ws ih =>
    rw [expandFrom]
    rcases hplay : (cmdRound completionClass w i).play l with l' | l' | ret
    · dsimp only
      rw [expandFrom, play_expandWord hplay]
      dsimp only
      rw [expandWord_expandWord hplay, ih]
    · rw [expandFrom, hplay]
    · rw [expandFrom, hplay]

/-- The spelled out line selects what the line does, or is refused in the same way;
    and it is spelled out. -/
theorem cmdFindElement_expand (table : List (CmdElement F)) (vline : List CString) :
    cmdFindElement (filterBy completionClass) table (expand table vline) =
      cmdFindElement (filterBy completionClass) table vline ∧
    expand table (expand table vline) = expand table vline := by
  refine ⟨?_, expandFrom_expandFrom 0 vline table⟩
  rw [cmdFindElement_eq, cmdFindElement_eq, expand, run_expandFrom, length_expandFrom]

/-! ## Configuration files -/

/-- An alternative gets the same class strictly, unless its keyword is abbreviated, or
    it is an address, and the word is a partial one. -/
theorem stringClass_eq_of_ne {t : MatchType} (h : completionClass w s = t) (ht : t ≠ .partlyMatch)
    (haddr : IsAddress s → completionClass w s ≠ .noMatch → stringClass w s ≠ .noMatch) :
    stringClass w s = t := by
  by_cases ha : IsAddress s
  · by_cases hno : completionClass w s = .noMatch
    · by_contra hne
      have hs : stringClass w s ≠ .noMatch := fun hs => hne (hs.trans (hno.symm.trans h))
      exact hs ((stringClass_eq hs).trans hno)
    · exact (stringClass_eq (haddr ha hno)).trans h
  · have hsame : strcmp w s = 0 → strncmp w s w.length = 0 := fun heq =>
      strncmp_length_eq_zero.2 (strcmp_eq_zero.1 heq ▸ List.prefix_rfl)
    simp only [IsAddress, not_or, Bool.not_eq_true] at ha
    obtain ⟨h4, h4p, h6, h6p⟩ := ha
    simp only [completionClass, h4, h4p, h6, h6p, Bool.false_eq_true, if_false] at h
    simp only [stringClass, h4, h4p, h6, h6p, Bool.false_eq_true, if_false]
    split_ifs at h ⊢ with hva hr hm hx hpre heq
    all_goals first
      | exact h
      | exact absurd h.symm ht
      | exact absurd (hsame ‹strcmp w s = 0›) ‹¬strncmp w s w.length = 0›

/-- The words give the element no partial address: where it takes an address that a
    word matches, the word is a complete one. -/
def NoPartialAddress (e : CmdElement F) (vline : List CString) : Prop :=
  ∀ i w, vline[i]? = some w → ∀ d ∈ e.item i, IsAddress d.cmd →
    completionClass w d.cmd ≠ .noMatch → stringClass w d.cmd ≠ .noMatch

instance : DecidablePred IsAddress := fun s =>
  inferInstanceAs (Decidable (cmdIpv4 s ∨ cmdIpv4Prefix s ∨ cmdIpv6 s ∨ cmdIpv6Prefix s))

instance (e : CmdElement F) (vline : List CString) : Decidable (NoPartialAddress e vline) :=
  decidable_of_iff (∀ i < vline.length, ∀ w ∈ vline[i]?, ∀ d ∈ e.item i, IsAddress d.cmd →
      completionClass w d.cmd ≠ .noMatch → stringClass w d.cmd ≠ .noMatch)
    ⟨fun h i w hw => h i (List.getElem?_eq_some_iff.1 hw).1 w hw, fun h i _ w hw => h i w hw⟩

/-- Where no abbreviation is left, both executors classify an element alike. -/
theorem classAt_stringClass (hne : classAt (completionClass w) i e ≠ .noMatch)
    (hp : classAt (completionClass w) i e ≠ .partlyMatch)
    (haddr : ∀ d ∈ e.item i, IsAddress d.cmd → completionClass w d.cmd ≠ .noMatch →
      stringClass w d.cmd ≠ .noMatch) :
    classAt (stringClass w) i e = classAt (completionClass w) i e := by
  refine le_antisymm (classAt_le_of_restricts stringClass_restricts e) ?_
  obtain ⟨d, hd, hdt⟩ := exists_cls_of_classAt hne
  rw [← stringClass_eq_of_ne hdt hp (haddr d hd)]
  exact cls_le_classAt hd

/-- An element that a round keeps is given no abbreviation, once it is spelled out. -/
theorem classAt_expandWord (h : (cmdRound completionClass w i).play l = .go l') (he : e ∈ l') :
    classAt (completionClass (expandWord w i l)) i e ≠ .noMatch ∧
      classAt (completionClass (expandWord w i l)) i e ≠ .partlyMatch := by
  obtain ⟨hh, hf, hl'⟩ := Round.play_go_iff.1 (play_expandWord h)
  rw [hl'] at he
  obtain ⟨hel, hkeep⟩ := List.mem_filter.1 he
  refine ⟨(keep_iff.1 hkeep).1, fun hpart => ?_⟩
  have htop : topClass completionClass (expandWord w i l) i l ≠ .partlyMatch := by
    by_cases ht : topClass completionClass w i l = .partlyMatch
    · obtain ⟨hkey, -, ⟨a, ha, d, hd, hda⟩, -⟩ :=
        expandWord_spec ht (Round.play_go_iff.1 h).2.1
      rw [topClass_of_isKeyword hkey ha hd hda]
      decide
    · rwa [expandWord, if_neg ht]
  -- The class of the element is the top one, or below a prefix.
  rcases classAt_of_keep completionClass_classifies hh hf hel hkeep with ht | ht
  · exact htop (ht.symm.trans hpart)
  · have hle : MatchType.partlyMatch ≤ topClass completionClass (expandWord w i l) i l :=
      hpart ▸ classAt_le_topClass hel
    rcases ht with ht | ht
    · exact absurd (ht ▸ hle) (by decide)
    · exact absurd (ht ▸ hle) (by decide)

/-- The element that the spelled out line selects has the same classes strictly. -/
theorem classAt_expandFrom {m : List (CmdElement F)}
    (hlive : (run (cmdRounds completionClass i vline) l).live = some m) (he : e ∈ m)
    (hone : ∀ m, run (cmdRounds completionClass i vline) l = .halt m → m = [e])
    {j : ℕ} {k : List (CmdElement F)} (hw : (expandFrom i vline l)[j]? = some w)
    (hgo : run (cmdRounds completionClass i ((expandFrom i vline l).take j)) l = .go k)
    (haddr : ∀ d ∈ e.item (i + j), IsAddress d.cmd → completionClass w d.cmd ≠ .noMatch →
      stringClass w d.cmd ≠ .noMatch) :
    classAt (stringClass w) (i + j) e = classAt (completionClass w) (i + j) e := by
  induction vline generalizing i l j with
  | nil => cases hw
  | cons w' ws ih =>
    rw [cmdRounds, run] at hlive hone
    rw [expandFrom] at hw hgo
    rcases hplay : (cmdRound completionClass w' i).play l with l' | l' | ret
    · rw [hplay] at hlive hone hw hgo
      dsimp only at hlive hone hw hgo
      cases j with
      | zero =>
        cases hw
        obtain ⟨hne, hp⟩ := classAt_expandWord hplay (mem_of_mem_run hlive he)
        exact classAt_stringClass hne hp haddr
      | succ j =>
        rw [List.take_succ_cons, cmdRounds, run, play_expandWord hplay] at hgo
        rw [← Nat.add_assoc, Nat.add_right_comm] at haddr ⊢
        exact ih hlive hone hw hgo haddr
    · -- A vararg, which the element is the only one to have.
      rw [hplay] at hone hw hgo
      obtain ⟨hh, hl'⟩ := Round.play_halt_iff.1 hplay
      cases j with
      | zero =>
        cases hw
        have htop : topClass completionClass w i l = .varargMatch := halts_iff.1 hh
        have hne : topClass completionClass w i l ≠ .noMatch := by
          rw [htop]
          decide
        obtain ⟨a, ha, -, -, -, hat⟩ := exists_cls_eq_topClass hne
        have hae : a ∈ l' := by
          rw [hl']
          exact List.mem_filter.2 ⟨ha, keep_iff.2 ⟨hat ▸ hne, .inl htop⟩⟩
        rw [hone l' rfl] at hae
        obtain rfl := List.mem_singleton.1 hae
        have hp : classAt (completionClass w) i a ≠ .partlyMatch := by
          rw [hat, htop]
          decide
        exact classAt_stringClass (hat ▸ hne) hp haddr
      | succ j =>
        rw [List.take_succ_cons, cmdRounds, run, hplay] at hgo
        cases hgo
    · rw [hplay] at hlive
      cases hlive

/-- The arguments are as many for the words of another line, of the same length. -/
theorem exists_cmdArgLoop {strvec : List (List Desc)} {vline vline' : List CString}
    (hlen : vline'.length = vline.length) {varflag : Bool} {args args' argv : List CString}
    (hargs : args'.length = args.length)
    (h : cmdArgLoop strvec vline i varflag args = .ok argv) :
    ∃ argv', cmdArgLoop strvec vline' i varflag args' = .ok argv' := by
  -- The loop looks at the words only to store them.
  induction vline generalizing vline' i varflag args args' with
  | nil =>
    rw [List.length_eq_zero_iff.1 hlen]
    exact ⟨args', rfl⟩
  | cons w ws ih =>
    obtain ⟨w', ws', rfl⟩ : ∃ w' ws', vline' = w' :: ws' :=
      List.exists_cons_of_length_eq_add_one hlen
    rw [cmdArgLoop] at h ⊢
    cases hitem : argItem strvec i varflag with
    | none =>
      rw [hitem] at h
      cases h
    | some item =>
      rw [hitem] at h
      obtain ⟨isArg, varflag'⟩ := item
      dsimp only at h ⊢
      have hsnoc : (args' ++ [w']).length = (args ++ [w]).length := by simp [hargs]
      cases isArg
      · simp only [Bool.false_eq_true, false_and, if_false] at h ⊢
        rw [hargs]
        split_ifs at h ⊢
        exact ih (Nat.succ.inj hlen) hargs h
      · simp only [true_and, if_true] at h ⊢
        rw [hargs, hsnoc]
        split_ifs at h ⊢
        exact ih (Nat.succ.inj hlen) hsnoc h

/-- A line that selects an element can be spelled out for a configuration file: given
    the words spelled out, both executors select the element, and its arguments are the
    spelled out ones. -/
theorem strict_expand (hw : ∀ w ∈ expand table vline, NoHalfPrefix w)
    (haddr : NoPartialAddress e (expand table vline))
    (h : (cmdExecuteCommand table vline).Selects e argv) :
    argv = consumed e.strvec 0 vline ∧
      (cmdExecuteCommand table (expand table vline)).Selects e
        (consumed e.strvec 0 (expand table vline)) ∧
      (cmdExecuteCommandStrict table (expand table vline)).Selects e
        (consumed e.strvec 0 (expand table vline)) := by
  obtain ⟨hfind, hargs⟩ := cmdExecuteWith_selects.1 h
  have hlen : (expand table vline).length = vline.length := length_expandFrom 0 vline table
  obtain ⟨argv', hargs'⟩ := exists_cmdArgLoop hlen rfl hargs
  have hargv : argv' = consumed e.strvec 0 (expand table vline) := cmdArgLoop_ok (i := 0) hargs'
  have hline : (cmdExecuteCommand table (expand table vline)).Selects e argv' :=
    cmdExecuteWith_selects.2 ⟨(cmdFindElement_expand table vline).1.trans hfind, hargs'⟩
  refine ⟨cmdArgLoop_ok (i := 0) hargs, hargv ▸ hline, ?_⟩
  rw [← hargv]
  refine cmdExecuteWith_restricts stringClass_restricts hw (List.Sublist.refl table)
    (mem_of_selects h).1 (fun i w m hi hm => ?_) hline
  -- What is left of the table has the element, and nothing else if there is a vararg.
  have hselect : cmdSelect vline.length (run (cmdRounds completionClass 0 vline) table) = .ok e :=
    (cmdFindElement_eq table vline).symm.trans hfind
  have hone (m : List (CmdElement F)) (hm : run (cmdRounds completionClass 0 vline) table =
      .halt m) : m = [e] := by
    rwa [hm, cmdSelect_halt] at hselect
  have hlive : ∃ m, (run (cmdRounds completionClass 0 vline) table).live = some m ∧ e ∈ m := by
    rcases hrun : run (cmdRounds completionClass 0 vline) table with m | m | ret
    · rw [hrun, cmdSelect_go] at hselect
      refine ⟨m, rfl, ?_⟩
      exact (List.mem_filter.1 (hselect ▸ List.mem_singleton_self e)).1
    · rw [hrun, cmdSelect_halt] at hselect
      exact ⟨m, rfl, hselect ▸ List.mem_singleton_self e⟩
    · rw [hrun] at hselect
      cases hselect
  obtain ⟨m', hm', hem'⟩ := hlive
  have hsame := classAt_expandFrom (w := w) hm' hem' hone hi hm
    (by rw [Nat.zero_add]; exact haddr i w hi)
  rwa [Nat.zero_add] at hsame

/-- `mak ins`, spelled out, is `make install` for both executors. -/
theorem strict_expand_make :
    words ["ins"] = consumed projectMakeInstallOrCleanCmd.strvec 0 (words ["mak", "ins"]) ∧
      (cmdExecuteCommand projectNode (expand projectNode (words ["mak", "ins"]))).Selects
        projectMakeInstallOrCleanCmd (consumed projectMakeInstallOrCleanCmd.strvec 0
          (expand projectNode (words ["mak", "ins"]))) ∧
      (cmdExecuteCommandStrict projectNode (expand projectNode (words ["mak", "ins"]))).Selects
        projectMakeInstallOrCleanCmd (consumed projectMakeInstallOrCleanCmd.strvec 0
          (expand projectNode (words ["mak", "ins"]))) :=
  strict_expand (by decide +kernel) (by decide +kernel) (by decide +kernel)

/-- The handler gets the keyword then. -/
example : expand projectNode (words ["mak", "ins"]) = words ["make", "install"] := by
  decide +kernel

end Mksh
