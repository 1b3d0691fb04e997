import Mksh.Command.Select

/-!
# Soundness of dispatch

What the words of a line satisfy when it selects an element.

* From a configuration file, each word before the end of matching satisfies
  strictly an alternative of its item, and the line is complete
  (`cmdExecuteCommandStrict_sound`).
* Typed by the user, each word before the vararg satisfies an alternative of
  its item, with an abbreviation standing for its keyword, if and only if there
  is none for which the alternatives it matches are all partial IPv4 forms
  (`cmdExecuteCommand_sound_iff`). The ambiguity check refuses a partial
  `A.B.C.D/M` when its class is the top one, but lets a partial `A.B.C.D` pass,
  as does `cmdExecuteCommand_partial_address`.
-/

namespace Mksh

open CString Elimination

variable {F : Type*} {cls : CString → CString → MatchType} {table : List (CmdElement F)}
  {vline argv : List CString} {e : CmdElement F}

/-- The word satisfies the alternative `s`: a keyword when `keyword` relates
    them, a range when it lies in it, an address form when it is a complete one,
    and another variable or an option in any case. -/
inductive Satisfies (keyword : CString → CString → Prop) (w s : CString) : Prop
  | keyword : IsKeyword s → keyword w s → Satisfies keyword w s
  | range : cmdRange s → cmdRangeMatch s (some w) → Satisfies keyword w s
  | ipv4 : cmdIpv4 s → cmdIpv4Match (some w) = .exactMatch → Satisfies keyword w s
  | ipv4Prefix : cmdIpv4Prefix s → cmdIpv4PrefixMatch (some w) = .exactMatch →
      Satisfies keyword w s
  | ipv6 : cmdIpv6 s → cmdIpv6Match (some w) = .exactMatch → Satisfies keyword w s
  | ipv6Prefix : cmdIpv6Prefix s → cmdIpv6PrefixMatch (some w) = .exactMatch →
      Satisfies keyword w s
  | variable : IsPlainVariable s → Satisfies keyword w s
  | option : cmdOption s → Satisfies keyword w s

/-- Only a keyword related to the word stands for itself. -/
theorem Satisfies.of_isKeyword {keyword : CString → CString → Prop} {w s : CString}
    (h : Satisfies keyword w s) (hs : IsKeyword s) : keyword w s := by
  have hv : ¬cmdVariable s := Bool.eq_false_iff.1 hs.2.1
  have haddr (ha : IsAddress s) : keyword w s := absurd (cmdVariable_of_isAddress ha) hv
  rcases h with ⟨-, hw⟩ | hr | h4 | h4p | h6 | h6p | hp | ho
  · exact hw
  · exact absurd (cmdVariable_of_cmdRange hr) hv
  · exact haddr (.inl h4)
  · exact haddr (.inr (.inl h4p))
  · exact haddr (.inr (.inr (.inl h6)))
  · exact haddr (.inr (.inr (.inr h6p)))
  · exact absurd hp.1 hv
  · exact absurd ho (Bool.eq_false_iff.1 hs.1)

/-! ## Configuration files -/

/-- An alternative matched strictly is satisfied, or it is a vararg. -/
theorem satisfies_of_stringClass {w s : CString} (h : stringClass w s ≠ .noMatch) :
    Satisfies (· = ·) w s ∨ cmdVararg s := by
  have hs := stringClass_spec w s
  cases ht : stringClass w s with
  | noMatch => exact absurd ht h
  | partlyMatch => rw [ht] at hs; exact hs.elim
  | varargMatch => rw [ht] at hs; exact .inr hs
  | exactMatch => rw [ht] at hs; exact .inl (.keyword hs.1 hs.2)
  | rangeMatch => rw [ht] at hs; exact .inl (.range hs.1 hs.2)
  | ipv6Match => rw [ht] at hs; exact .inl (.ipv6 hs.1 hs.2)
  | ipv6PrefixMatch => rw [ht] at hs; exact .inl (.ipv6Prefix hs.1 hs.2)
  | ipv4Match => rw [ht] at hs; exact .inl (.ipv4 hs.1 hs.2)
  | ipv4PrefixMatch => rw [ht] at hs; exact .inl (.ipv4Prefix hs.1 hs.2)
  | extendMatch => rw [ht] at hs; exact .inl (hs.elim .option .variable)

/-- Soundness of strict dispatch: up to `index`, where matching stops at a
    vararg or at the end of the line, each word satisfies strictly an
    alternative of its item; then the item at `index` has a vararg, or the line
    is long enough. -/
theorem cmdExecuteCommandStrict_sound
    (h : (cmdExecuteCommandStrict table vline).Selects e argv) :
    ∃ (index : ℕ) (type : MatchType) (v : CmdVector F),
      cmdMatchLoop cmdFilterByString vline 0 .noMatch (vectorCopy table) =
        .ok (index, type, v) ∧
      index ≤ e.strvec.length ∧
      (∀ i w, i < index → vline[i]? = some w →
        (∃ d ∈ e.item i, Satisfies (· = ·) w d.cmd ∨ cmdVararg d.cmd) ∧
        ((∀ d ∈ e.item i, IsKeyword d.cmd) → ∃ d ∈ e.item i, d.cmd = w) ∧
        ((∀ d ∈ e.item i, IsAddress d.cmd) → ∃ d ∈ e.item i, Satisfies (· = ·) w d.cmd)) ∧
      (type = .varargMatch → ∃ d ∈ e.item index, cmdVararg d.cmd) ∧
      (type ≠ .varargMatch → index = vline.length ∧ vline.length ≥ e.cmdsize) := by
  obtain ⟨index, type, v, hend⟩ := exists_matchEnd (cmdExecuteWith_selects.1 h).1
  have hmatch : ∀ i w, i < index → vline[i]? = some w →
      ∃ d ∈ e.item i, Satisfies (· = ·) w d.cmd ∨ cmdVararg d.cmd := by
    intro i w hi hw
    obtain ⟨m, -, -, -, hk⟩ := hend.exists_round hi hw
    obtain ⟨d, hd, hdc⟩ := exists_cls_of_classAt (keep_iff.1 hk).1
    exact ⟨d, hd, satisfies_of_stringClass (hdc.trans_ne (keep_iff.1 hk).1)⟩
  refine ⟨index, type, v, hend.loop, hend.index_le,
    fun i w hi hw => ⟨hmatch i w hi hw, fun hkey => ?_, fun haddr => ?_⟩, ?_, ?_⟩
  · obtain ⟨d, hd, hs⟩ := hmatch i w hi hw
    have hsat := hs.resolve_right (Bool.eq_false_iff.1 (hkey d hd).2.2)
    exact ⟨d, hd, (hsat.of_isKeyword (hkey d hd)).symm⟩
  · obtain ⟨d, hd, hs⟩ := hmatch i w hi hw
    have hv := cmdVararg_eq_false_of_cmdVariable (cmdVariable_of_isAddress (haddr d hd))
    exact ⟨d, hd, hs.resolve_right (Bool.eq_false_iff.1 hv)⟩
  · rintro rfl
    obtain ⟨w, -, hc⟩ := hend.exists_vararg
    obtain ⟨d, hd, hdc⟩ := exists_cls_of_classAt (hc.trans_ne (by decide))
    exact ⟨d, hd, stringClass_classifies.vararg.1 (hdc.trans hc)⟩
  · -- Without a vararg, all words are matched, and the element is complete.
    intro htype
    rcases hend.select with ⟨hv, -, -⟩ | ⟨-, hi, -, hl⟩
    · exact absurd hv htype
    · exact ⟨hi, (by simpa using (filter_eq_singleton hl).1)⟩

/-- `make install` in a configuration file. -/
theorem cmdExecuteCommandStrict_sound_make :
    ∃ (index : ℕ) (type : MatchType) (v : CmdVector ToolFunc),
      cmdMatchLoop cmdFilterByString (words ["make", "install"]) 0 .noMatch
        (vectorCopy projectNode) = .ok (index, type, v) ∧
      index ≤ projectMakeInstallOrCleanCmd.strvec.length ∧
      ∀ i w, i < index → (words ["make", "install"])[i]? = some w →
        ∃ d ∈ projectMakeInstallOrCleanCmd.item i,
          Satisfies (· = ·) w d.cmd ∨ cmdVararg d.cmd := by
  have h : (cmdExecuteCommandStrict projectNode (words ["make", "install"])).Selects
      projectMakeInstallOrCleanCmd (words ["install"]) := by decide +kernel
  obtain ⟨index, type, v, hloop, hle, hmatch, -, -⟩ := cmdExecuteCommandStrict_sound h
  exact ⟨index, type, v, hloop, hle, fun i w hi hw => (hmatch i w hi hw).1⟩

/-! ## Lines typed by the user -/

/-- The alternative is an IPv4 form of which the word is only a part. -/
def PartialIpv4 (w s : CString) : Prop :=
  (cmdIpv4 s ∧ cmdIpv4Match (some w) = .partlyMatch) ∨
    (cmdIpv4Prefix s ∧ cmdIpv4PrefixMatch (some w) = .partlyMatch)

/-- The word matches alternatives of the item, but only IPv4 forms of which it
    is a part. -/
def PartialOnly (w : CString) (item : List Desc) : Prop :=
  (∃ d ∈ item, PartialIpv4 w d.cmd) ∧
    ∀ d ∈ item, completionClass w d.cmd ≠ .noMatch → PartialIpv4 w d.cmd

/-- The item at `i` stands before the first one with a vararg. -/
def BeforeVararg (e : CmdElement F) (i : ℕ) : Prop :=
  ∀ j ≤ i, ∀ d ∈ e.item j, cmdVararg d.cmd = false

/-- Every word before a vararg is matched by a round. -/
theorem MatchEnd.lt_index {index : ℕ} {type : MatchType} {v : CmdVector F}
    (hend : MatchEnd completionClass table vline e index type v) {i : ℕ} {w : CString}
    (hw : vline[i]? = some w) (hb : BeforeVararg e i) : i < index := by
  have hlen := (List.getElem?_eq_some_iff.1 hw).1
  rcases hend.select with ⟨rfl, -, -⟩ | ⟨-, rfl, -, -⟩
  · by_contra hle
    obtain ⟨w', -, hc⟩ := hend.exists_vararg
    obtain ⟨d, hd, hdc⟩ := exists_cls_of_classAt (hc.trans_ne (by decide))
    exact absurd (completionClass_classifies.vararg.1 (hdc.trans hc))
      (Bool.eq_false_iff.1 (hb index (by omega) d hd))
  · exact hlen

/-- An alternative matched is satisfied, or a vararg, or an address form of
    which the word is only a part. -/
theorem satisfies_of_completionClass {w s : CString} (h : completionClass w s ≠ .noMatch) :
    Satisfies (· <+: ·) w s ∨ cmdVararg s ∨ PartialIpv4 w s ∨
      (completionClass w s = .ipv6PrefixMatch ∧ cmdIpv6PrefixMatch (some w) = .partlyMatch) := by
  have hs := completionClass_spec w s
  -- An address that is matched in part is the exception, for each of its kinds but one: an IPv6
  -- address never is.
  cases ht : completionClass w s with
  | noMatch => exact absurd ht h
  | varargMatch => rw [ht] at hs; exact .inr (.inl hs)
  | partlyMatch => rw [ht] at hs; exact .inl (.keyword hs.1 hs.2)
  | exactMatch => rw [ht] at hs; exact .inl (.keyword hs.1 (hs.2 ▸ List.prefix_refl w))
  | rangeMatch => rw [ht] at hs; exact .inl (.range hs.1 hs.2)
  | extendMatch => rw [ht] at hs; exact .inl (hs.elim .option .variable)
  | ipv6Match =>
    rw [ht] at hs
    exact .inl (.ipv6 hs.1 ((cmdIpv6Match_some w).resolve_left hs.2))
  | ipv6PrefixMatch =>
    rw [ht] at hs
    rcases (cmdIpv6PrefixMatch_isVerdict (some w)).resolve_left hs.2 with hp | hx
    · exact .inr (.inr (.inr ⟨rfl, hp⟩))
    · exact .inl (.ipv6Prefix hs.1 hx)
  | ipv4Match =>
    rw [ht] at hs
    rcases (cmdIpv4Match_isVerdict (some w)).resolve_left hs.2 with hp | hx
    · exact .inr (.inr (.inl (.inl ⟨hs.1, hp⟩)))
    · exact .inl (.ipv4 hs.1 hx)
  | ipv4PrefixMatch =>
    rw [ht] at hs
    rcases (cmdIpv4PrefixMatch_isVerdict (some w)).resolve_left hs.2 with hp | hx
    · exact .inr (.inr (.inl (.inr ⟨hs.1, hp⟩)))
    · exact .inl (.ipv4Prefix hs.1 hx)

/-- An alternative satisfied is matched. -/
theorem completionClass_of_satisfies {w s : CString} (h : Satisfies (· <+: ·) w s) :
    completionClass w s ≠ .noMatch := by
  rcases h with ⟨hs, hw⟩ | ⟨hs, hw⟩ | ⟨hs, hw⟩ | ⟨hs, hw⟩ | ⟨hs, hw⟩ | ⟨hs, hw⟩ | hs | hs
  · rw [completionClass_of_isKeyword hs, if_pos hw]
    split_ifs <;> decide
  · have hv := cmdVararg_eq_false_of_cmdVariable (cmdVariable_of_cmdRange hs)
    simp [completionClass, hv, hs, hw]
  -- For an address form, the definition computes to the branch of its matcher.
  · obtain rfl := cmdIpv4_iff.1 hs
    change (if cmdIpv4Match (some w) ≠ .noMatch then _ else _) ≠ MatchType.noMatch
    rw [hw]
    decide
  · obtain rfl := cmdIpv4Prefix_iff.1 hs
    change (if cmdIpv4PrefixMatch (some w) ≠ .noMatch then _ else _) ≠ MatchType.noMatch
    rw [hw]
    decide
  · obtain rfl := cmdIpv6_iff.1 hs
    change (if cmdIpv6Match (some w) ≠ .noMatch then _ else _) ≠ MatchType.noMatch
    rw [hw]
    decide
  · obtain rfl := cmdIpv6Prefix_iff.1 hs
    change (if cmdIpv6PrefixMatch (some w) ≠ .noMatch then _ else _) ≠ MatchType.noMatch
    rw [hw]
    decide
  · rw [completionClass_of_plain (.inr hs)]
    decide
  · rw [completionClass_of_plain (.inl hs)]
    decide

/-- Only a complete address satisfies an IPv4 form. -/
theorem Satisfies.of_ipv4 {keyword : CString → CString → Prop} {w s : CString}
    (h : Satisfies keyword w s) (hs : cmdIpv4 s) : cmdIpv4Match (some w) = .exactMatch := by
  obtain rfl := cmdIpv4_iff.1 hs
  rcases h with ⟨h, -⟩ | ⟨h, -⟩ | ⟨-, hw⟩ | ⟨h, -⟩ | ⟨h, -⟩ | ⟨h, -⟩ | h | h
  · exact absurd h (by decide)
  · exact absurd h (by decide)
  · exact hw
  · exact absurd h (by decide)
  · exact absurd h (by decide)
  · exact absurd h (by decide)
  · exact absurd (.inl hs) h.2.2
  · exact absurd h (by decide)

/-- A word that satisfies the placeholder of a prefix is a complete one. -/
theorem Satisfies.of_ipv4Prefix {keyword : CString → CString → Prop} {w s : CString}
    (h : Satisfies keyword w s) (hs : cmdIpv4Prefix s) :
    cmdIpv4PrefixMatch (some w) = .exactMatch := by
  obtain rfl := cmdIpv4Prefix_iff.1 hs
  rcases h with ⟨h, -⟩ | ⟨h, -⟩ | ⟨h, -⟩ | ⟨-, hw⟩ | ⟨h, -⟩ | ⟨h, -⟩ | h | h
  · exact absurd h (by decide)
  · exact absurd h (by decide)
  · exact absurd h (by decide)
  · exact hw
  · exact absurd h (by decide)
  · exact absurd h (by decide)
  · exact absurd (.inr (.inl hs)) h.2.2
  · exact absurd h (by decide)

/-- What is satisfied is not partial. -/
theorem Satisfies.not_partialIpv4 {keyword : CString → CString → Prop} {w s : CString}
    (h : Satisfies keyword w s) : ¬PartialIpv4 w s := by
  rintro (⟨hs, hp⟩ | ⟨hs, hp⟩)
  · exact absurd (hp.symm.trans (h.of_ipv4 hs)) (by decide)
  · exact absurd (hp.symm.trans (h.of_ipv4Prefix hs)) (by decide)

/-- Above the IPv6 prefixes, the classes leave no room for a partial match. -/
theorem satisfies_of_lt_completionClass {w s : CString}
    (h : .ipv6PrefixMatch < completionClass w s) : Satisfies (· <+: ·) w s ∨ cmdVararg s := by
  have hs := completionClass_spec w s
  cases ht : completionClass w s with
  | noMatch | extendMatch | ipv4PrefixMatch | ipv4Match | ipv6PrefixMatch =>
    rw [ht] at h
    exact absurd h (by decide)
  | ipv6Match =>
    rw [ht] at hs
    exact .inl (.ipv6 hs.1 ((cmdIpv6Match_some w).resolve_left hs.2))
  | rangeMatch => rw [ht] at hs; exact .inl (.range hs.1 hs.2)
  | varargMatch => rw [ht] at hs; exact .inr hs
  | partlyMatch => rw [ht] at hs; exact .inl (.keyword hs.1 hs.2)
  | exactMatch => rw [ht] at hs; exact .inl (.keyword hs.1 (hs.2 ▸ List.prefix_refl w))

section Round

/-! A round that goes on and keeps `e`, whose item has no vararg. -/

variable {w : CString} {i : ℕ} {l : List (CmdElement F)}
  (hh : ¬(cmdRound completionClass w i).halts l)
  (hf : (cmdRound completionClass w i).fail l = none) (he : e ∈ l)
  (hk : (cmdRound completionClass w i).keep l e)
  (hv : ∀ d ∈ e.item i, cmdVararg d.cmd = false)
include hh hf he hk hv

/-- A word that is only a part of an IPv6 prefix is refused, unless an
    alternative of a higher class is satisfied. -/
theorem satisfies_of_partial_ipv6Prefix {d : Desc} (hd : d ∈ e.item i)
    (hc : completionClass w d.cmd = .ipv6PrefixMatch)
    (hp : cmdIpv6PrefixMatch (some w) = .partlyMatch) :
    ∃ d ∈ e.item i, Satisfies (· <+: ·) w d.cmd := by
  have hne := (keep_iff.1 hk).1
  have hle : .ipv6PrefixMatch ≤ classAt (completionClass w) i e := hc ▸ cls_le_classAt hd
  -- The top class is not that of the IPv6 prefixes: they would be partial.
  have htop : topClass completionClass w i l ≠ .ipv6PrefixMatch := by
    intro htop
    have hmem : d.cmd ∈ liveHits w .ipv6PrefixMatch i (matching completionClass w i l) := by
      refine mem_liveHits.2 ⟨e, List.mem_filter.2 ⟨he, by simpa using hne⟩, ⟨d, hd, rfl⟩, ?_⟩
      simp [hits, hp]
    have hpart : isPartial w .ipv6PrefixMatch := decide_eq_true hp
    rw [fail_eq_none_iff, roundConflict, htop, conflict, if_pos hpart,
      if_neg (List.ne_nil_of_mem hmem)] at hf
    cases hf
  have hlt : .ipv6PrefixMatch < classAt (completionClass w) i e := by
    rcases classAt_of_keep completionClass_classifies hh hf he hk with ht | ht | ht
    · exact lt_of_le_of_ne hle fun heq => htop (ht.symm.trans heq.symm)
    · exact absurd ht htop
    · exact absurd (ht ▸ hle.trans (classAt_le_topClass he)) (by decide)
  obtain ⟨d', hd', hdc⟩ := exists_cls_of_classAt hne
  exact ⟨d', hd', (satisfies_of_lt_completionClass (hdc ▸ hlt)).resolve_right
    (Bool.eq_false_iff.1 (hv d' hd'))⟩

/-- A word satisfies an item iff it is not only a partial prefix of it. -/
theorem satisfies_iff_not_partialOnly :
    (∃ d ∈ e.item i, Satisfies (· <+: ·) w d.cmd) ↔ ¬PartialOnly w (e.item i) := by
  constructor
  · rintro ⟨d, hd, hs⟩ hp
    exact hs.not_partialIpv4 (hp.2 d hd (completionClass_of_satisfies hs))
  intro hp
  by_contra hns
  -- The alternatives matched are all partial: IPv4 forms, as an IPv6 prefix is refused.
  have hpart : ∀ d ∈ e.item i, completionClass w d.cmd ≠ .noMatch → PartialIpv4 w d.cmd := by
    intro d hd hne
    rcases satisfies_of_completionClass hne with hs | ha | h4 | ⟨hc, h6⟩
    · exact absurd ⟨d, hd, hs⟩ hns
    · exact absurd ha (Bool.eq_false_iff.1 (hv d hd))
    · exact h4
    · exact absurd (satisfies_of_partial_ipv6Prefix hh hf he hk hv hd hc h6) hns
  obtain ⟨d, hd, hdc⟩ := exists_cls_of_classAt (keep_iff.1 hk).1
  exact hp ⟨⟨d, hd, hpart d hd (hdc.trans_ne (keep_iff.1 hk).1)⟩, hpart⟩

end Round

/-- Soundness of interactive dispatch: each word before the vararg satisfies an
    alternative of its item, if and only if there is none that matches only IPv4
    forms of which it is a part. -/
theorem cmdExecuteCommand_sound_iff (h : (cmdExecuteCommand table vline).Selects e argv) :
    (∀ i w, vline[i]? = some w → BeforeVararg e i →
        ∃ d ∈ e.item i, Satisfies (· <+: ·) w d.cmd) ↔
      ∀ i w, vline[i]? = some w → BeforeVararg e i → ¬PartialOnly w (e.item i) := by
  obtain ⟨index, type, v, hend⟩ := exists_matchEnd (cmdExecuteWith_selects.1 h).1
  have hiff : ∀ i w, vline[i]? = some w → BeforeVararg e i →
      ((∃ d ∈ e.item i, Satisfies (· <+: ·) w d.cmd) ↔ ¬PartialOnly w (e.item i)) := by
    intro i w hw hb
    obtain ⟨m, hem, hh, hf, hk⟩ := hend.exists_round (hend.lt_index hw hb) hw
    exact satisfies_iff_not_partialOnly hh hf hem hk (hb i le_rfl)
  exact forall₂_congr fun i w => forall₂_congr (hiff i w)

/-- A command with an address. -/
def ipCmd : CmdElement Unit where
  string := "ip A.B.C.D".toList
  func := some ()
  doc := none
  daemon := 0
  strvec := [[⟨"ip".toList, none⟩], [⟨"A.B.C.D".toList, none⟩]]
  cmdsize := 2

/-- `ip 1.2.3.4` satisfies both items of the command. -/
theorem cmdExecuteCommand_sound_iff_ip :
    (∀ i w, (words ["ip", "1.2.3.4"])[i]? = some w → BeforeVararg ipCmd i →
        ∃ d ∈ ipCmd.item i, Satisfies (· <+: ·) w d.cmd) ↔
      ∀ i w, (words ["ip", "1.2.3.4"])[i]? = some w → BeforeVararg ipCmd i →
        ¬PartialOnly w (ipCmd.item i) := by
  have h : (cmdExecuteCommand [ipCmd] (words ["ip", "1.2.3.4"])).Selects ipCmd
      (words ["1.2.3.4"]) := by decide
  exact cmdExecuteCommand_sound_iff h

/-- `ip 1.2` runs the handler, although `1.2` is not an address. -/
theorem cmdExecuteCommand_partial_address : ipCmd.Installed ∧
    cmdExecuteCommand [ipCmd] (words ["ip", "1.2"]) = .call ipCmd (words ["1.2"]) ∧
    (words ["ip", "1.2"])[1]? = some "1.2".toList ∧ BeforeVararg ipCmd 1 ∧
    ¬∃ d ∈ ipCmd.item 1, Satisfies (· <+: ·) "1.2".toList d.cmd := by
  refine ⟨by decide, by decide, by decide, ?_, ?_⟩
  · unfold BeforeVararg
    decide
  · rintro ⟨d, hd, hs⟩
    obtain rfl := List.mem_singleton.1 hd
    exact absurd (hs.of_ipv4 (by decide)) (by decide)

end Mksh
