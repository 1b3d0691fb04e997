import Mksh.Command.Dispatch

/-!
# What the ambiguity check leaves

After the filter has given the top class of a word, the ambiguity check is to
leave the elements that the word matches with that class (`matchesAs`). It does
so for every class but those of the address prefixes, for which it does not
look at the alternatives: there, it leaves all that the filter did
(`isCmdAmbiguous_leaves_iff`).
-/

namespace Mksh

open CString Elimination

variable {F : Type*} {cls : CString → CString → MatchType} {w : CString} {index : ℕ}
  {l : List (CmdElement F)} {e : CmdElement F}

/-- The element has, at `index`, an alternative that the word matches with the
    class `t`. -/
def matchesAs (cls : CString → CString → MatchType) (w : CString) (index : ℕ) (t : MatchType)
    (e : CmdElement F) : Bool :=
  (e.item index).any fun desc => cls w desc.cmd = t

/-- An element matches in a class iff one of the alternatives at the index does. -/
theorem matchesAs_iff {t : MatchType} :
    matchesAs cls w index t e ↔ ∃ desc ∈ e.item index, cls w desc.cmd = t := by
  simp [matchesAs]

/-- For the top class, these are the elements of that class. -/
theorem matchesAs_topClass_iff (he : e ∈ l) (h : topClass cls w index l ≠ .noMatch) :
    matchesAs cls w index (topClass cls w index l) e ↔
      classAt (cls w) index e = topClass cls w index l := by
  rw [matchesAs_iff]
  constructor
  · rintro ⟨desc, hdesc, ht⟩
    exact le_antisymm (classAt_le_topClass he) (ht ▸ cls_le_classAt hdesc)
  · intro ht
    rw [← ht] at h ⊢
    exact exists_cls_of_classAt h

/-- What the check leaves, when it returns `0`, is what the round keeps. -/
theorem reduceOption_isCmdAmbiguous {v : CmdVector F}
    (hv : topClass cls w index v.reduceOption ≠ .varargMatch)
    (h : (isCmdAmbiguous w (filterBy cls w v index).2 index
      (topClass cls w index v.reduceOption)).1 = 0) :
    (cmdRound cls w index).fail v.reduceOption = none ∧
      (isCmdAmbiguous w (filterBy cls w v index).2 index
        (topClass cls w index v.reduceOption)).2.reduceOption =
        v.reduceOption.filter ((cmdRound cls w index).keep v.reduceOption) := by
  rw [isCmdAmbiguous_fst] at h
  have hc : roundConflict cls w index v.reduceOption = none := by
    rcases hc : roundConflict cls w index v.reduceOption with _ | ret
    · rfl
    · rw [hc, Option.getD_some] at h
      rcases conflict_eq_some hc with hr | hr
      · exact absurd (hr.symm.trans h) (by decide)
      · exact absurd (hr.symm.trans h) (by decide)
  exact ⟨fail_eq_none_iff.2 hc, (Round.play_go_iff.1 (play_of_agree hv hc)).2.2⟩

/-- The check leaves the elements that the word matches with the top class, if
    and only if that is not the class of a prefix, or no element matches with a
    lower class only. -/
theorem isCmdAmbiguous_leaves_iff {v v' v'' : CmdVector F} {t : MatchType}
    (hf : cmdFilterByCompletion w v index = (t, v')) (hn : t ≠ .noMatch) (hv : t ≠ .varargMatch)
    (ha : isCmdAmbiguous w v' index t = (0, v'')) :
    v''.reduceOption = v.reduceOption.filter (matchesAs completionClass w index t) ↔
      (IsPrefixClass t → ∀ e ∈ v.reduceOption, ∀ desc ∈ e.item index,
        completionClass w desc.cmd ≠ .noMatch → matchesAs completionClass w index t e) := by
  have ht : topClass completionClass w index v.reduceOption = t :=
    (filterBy_fst w v index).symm.trans (congrArg Prod.fst hf)
  have hv' : (filterBy completionClass w v index).2 = v' := congrArg Prod.snd hf
  subst ht hv'
  obtain ⟨hfail, hleft⟩ := reduceOption_isCmdAmbiguous hv (congrArg Prod.fst ha)
  rw [ha] at hleft
  rw [hleft]
  have hh : ¬(cmdRound completionClass w index).halts v.reduceOption := fun h => hv (halts_iff.1 h)
  constructor
  · -- An element that matches is kept in the case of a prefix, and is thus in the other list.
    intro heq hp e he desc hdesc hne
    have hclass : classAt (completionClass w) index e ≠ .noMatch := fun h =>
      hne (itemClass_eq_noMatch_iff.1 h desc hdesc)
    have hk := keep_of_classAt completionClass_classifies hh he hclass (.inr hp)
    have hmem := List.mem_filter.2 ⟨he, hk⟩
    rw [heq] at hmem
    exact (List.mem_filter.1 hmem).2
  · intro hp
    refine List.filter_congr fun e he => Bool.eq_iff_iff.2 ?_
    rw [matchesAs_topClass_iff he hn]
    constructor
    · intro hk
      rcases classAt_of_keep completionClass_classifies hh hfail he hk with hc | hc
      · exact hc
      · obtain ⟨desc, hdesc, hd⟩ := exists_cls_of_classAt (keep_iff.1 hk).1
        refine (matchesAs_topClass_iff he hn).1 (hp hc e he desc hdesc ?_)
        rw [hd]
        exact (keep_iff.1 hk).1
    · intro hc
      exact keep_of_classAt completionClass_classifies hh he (hc ▸ hn) (.inl hc)

/-- A command that takes any word, and one that takes a prefix. -/
def showWordCmd : CmdElement Unit where
  string := "show WORD".toList
  func := some ()
  doc := none
  daemon := 0
  strvec := [[⟨"show".toList, none⟩], [⟨"WORD".toList, none⟩]]
  cmdsize := 2

/-- A command that takes an IPv4 prefix. -/
def showPrefixCmd : CmdElement Unit where
  string := "show A.B.C.D/M".toList
  func := some ()
  doc := none
  daemon := 0
  strvec := [[⟨"show".toList, none⟩], [⟨"A.B.C.D/M".toList, none⟩]]
  cmdsize := 2

/-- The word `ten` leaves the command that takes any word, and not the one that takes a
    placeholder. -/
theorem isCmdAmbiguous_leaves_iff_show :
    (vectorCopy [showWordCmd]).reduceOption =
        (vectorCopy [showWordCmd, showPrefixCmd]).reduceOption.filter
          (matchesAs completionClass "ten".toList 1 .extendMatch) ↔
      (IsPrefixClass .extendMatch →
        ∀ e ∈ (vectorCopy [showWordCmd, showPrefixCmd]).reduceOption, ∀ desc ∈ e.item 1,
          completionClass "ten".toList desc.cmd ≠ .noMatch →
            matchesAs completionClass "ten".toList 1 .extendMatch e) :=
  have hfilter : cmdFilterByCompletion "ten".toList (vectorCopy [showWordCmd, showPrefixCmd]) 1 =
      (.extendMatch, [some showWordCmd, none]) := by decide +kernel
  have hleft : isCmdAmbiguous "ten".toList [some showWordCmd, none] 1 .extendMatch =
      (0, [some showWordCmd, none]) := by decide +kernel
  have hiff := isCmdAmbiguous_leaves_iff hfilter (by decide) (by decide) hleft
  hiff

/-- The prefix `10.0.0.0/8` does not rule out the command that takes any word. -/
theorem isCmdAmbiguous_leaves_word :
    showWordCmd.Installed ∧ showPrefixCmd.Installed ∧
    cmdFilterByCompletion "10.0.0.0/8".toList (vectorCopy [showWordCmd, showPrefixCmd]) 1 =
      (.ipv4PrefixMatch, vectorCopy [showWordCmd, showPrefixCmd]) ∧
    isCmdAmbiguous "10.0.0.0/8".toList (vectorCopy [showWordCmd, showPrefixCmd]) 1
        .ipv4PrefixMatch = (0, vectorCopy [showWordCmd, showPrefixCmd]) ∧
    (vectorCopy [showWordCmd, showPrefixCmd]).reduceOption ≠
      (vectorCopy [showWordCmd, showPrefixCmd]).reduceOption.filter
        (matchesAs completionClass "10.0.0.0/8".toList 1 .ipv4PrefixMatch) := by
  decide +kernel

end Mksh
