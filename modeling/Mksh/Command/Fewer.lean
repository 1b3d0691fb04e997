import Mksh.Cmd.Tool
import Mksh.Command.Argv
import Mksh.Command.Ipv6.Typed

/-!
# Fewer commands

Installing another command in a node never turns a line over from one of the
commands to another: what a line selects among more commands, it selects among
fewer, too (`selects_of_sublist`). At worst, the line becomes ambiguous, or is not
matched any more. This is so unless a word of the line is taken for a complete
IPv6 prefix, and is a partial IPv4 one (`NoHalfPrefix`).

More generally, the classes of the other elements may be taken away as well
(`Restricts`, `cmdExecuteWith_restricts`), which is what the strict executor does.
-/

namespace Mksh

open CString Elimination

variable {F : Type*} {cls cls' : CString → CString → MatchType} {w s : CString} {i : ℕ}
  {l k table table' : List (CmdElement F)} {e b : CmdElement F} {vline argv : List CString}

/-! ## Classes -/

/-- The word is not a prefix that is complete for IPv6, but partial for IPv4. -/
def NoHalfPrefix (w : CString) : Prop :=
  cmdIpv6PrefixMatch (some w) = .exactMatch → cmdIpv4PrefixMatch (some w) ≠ .partlyMatch

instance : DecidablePred NoHalfPrefix := fun w =>
  inferInstanceAs (Decidable (cmdIpv6PrefixMatch (some w) = .exactMatch →
    cmdIpv4PrefixMatch (some w) ≠ .partlyMatch))

/-- The classes of `cls'` are those of `cls`, but for some alternatives that do not
    match. -/
structure Restricts (cls' cls : CString → CString → MatchType) : Prop where
  classifies : Classifies cls
  classifies' : Classifies cls'
  eq : ∀ {w s : CString}, cls' w s ≠ .noMatch → cls' w s = cls w s
  ipv4 : ∀ {w s : CString}, cls w s = .ipv4Match → cmdIpv4Match (some w) ≠ .noMatch

/-- The classes of the completion filter restrict themselves. -/
theorem completionClass_restricts : Restricts completionClass completionClass where
  classifies := completionClass_classifies
  classifies' := completionClass_classifies
  eq _ := rfl
  ipv4 {w s} h := by
    have hs := completionClass_spec w s
    rw [h] at hs
    exact hs.2

/-- What the strict filter matches, it matches with the same class as the other one. -/
theorem stringClass_eq (h : stringClass w s ≠ .noMatch) :
    stringClass w s = completionClass w s := by
  rw [stringClass] at h ⊢
  rw [completionClass]
  split_ifs at h ⊢ <;> simp_all

/-- The strict classes restrict those of the completion filter. -/
theorem stringClass_restricts : Restricts stringClass completionClass where
  classifies := completionClass_classifies
  classifies' := stringClass_classifies
  eq := stringClass_eq
  ipv4 := completionClass_restricts.ipv4

/-- They restrict themselves. -/
theorem stringClass_restricts_self : Restricts stringClass stringClass where
  classifies := stringClass_classifies
  classifies' := stringClass_classifies
  eq _ := rfl
  ipv4 {w s} h := by
    have hs := stringClass_spec w s
    rw [h] at hs
    rw [hs.2]
    decide

/-- A string with a slash is not an IPv4 address, nor the start of one. -/
theorem cmdIpv4Loop_of_slash {str : CString} (h : '/' ∈ str) (dots nums : ℕ) (buf : CString) :
    cmdIpv4Loop dots nums buf str = .noMatch := by
  induction str generalizing dots nums buf with
  | nil => exact absurd h List.not_mem_nil
  | cons c str ih =>
    rw [cmdIpv4Loop]
    rcases List.mem_cons.1 h with rfl | h
    · rfl
    · have hne : str ≠ [] := List.ne_nil_of_mem h
      simp only [ih h, if_neg hne, ite_self]

/-- A complete IPv6 prefix has a slash, and is thus no IPv4 address. -/
theorem cmdIpv4Match_of_ipv6Prefix (h : cmdIpv6PrefixMatch (some w) = .exactMatch) :
    cmdIpv4Match (some w) = .noMatch := by
  obtain ⟨a, m, rfl, -⟩ := Ipv6.cmdIpv6PrefixMatch_split h
  exact cmdIpv4Loop_of_slash (List.mem_append_right a List.mem_cons_self) 0 0 []

/-! ## Rounds -/

/-- Some live element has an alternative that hits for the top class. -/
theorem exists_mem_liveHits (hcls : Classifies cls) (hne : topClass cls w i l ≠ .noMatch)
    (hv : topClass cls w i l ≠ .varargMatch) :
    ∃ s ∈ liveHits w (topClass cls w i l) i (matching cls w i l),
      hits w (topClass cls w i l) s := by
  obtain ⟨a, ha, d, hd, hdt, hat⟩ := exists_cls_eq_topClass hne
  have hhit : hits w (topClass cls w i l) d.cmd := hcls.hit hdt hne hv
  refine ⟨d.cmd, mem_liveHits.2 ⟨a, List.mem_filter.2 ⟨ha, ?_⟩, ⟨d, hd, rfl⟩, hhit⟩, hhit⟩
  exact decide_eq_true (hat ▸ hne)

/-- A partial prefix fails, so that one for which a round goes on is complete. -/
theorem isPartial_eq_false (hcls : Classifies cls) (hne : topClass cls w i l ≠ .noMatch)
    (hv : topClass cls w i l ≠ .varargMatch) (hf : (cmdRound cls w i).fail l = none) :
    isPartial w (topClass cls w i l) = false := by
  obtain ⟨s, hs, -⟩ := exists_mem_liveHits hcls hne hv
  rw [fail_eq_none_iff, roundConflict, conflict] at hf
  split_ifs at hf with hpartial hnil
  · rw [hnil] at hs
    exact absurd hs List.not_mem_nil
  · exact Bool.eq_false_iff.2 hpartial

/-- A word that is a prefix matches the alternatives of lower classes as variables, or
    as a complete prefix. -/
theorem cls_of_isPrefixClass (hcls : Restricts cls' cls) (hw : NoHalfPrefix w)
    (hp : IsPrefixClass (topClass cls w i l)) (hf : (cmdRound cls w i).fail l = none)
    (hle : cls w s ≤ topClass cls w i l) (hne : cls w s ≠ .noMatch) :
    cls w s = .extendMatch ∨ IsPrefixClass (cls w s) ∧ isPartial w (cls w s) = false := by
  have htop : topClass cls w i l ≠ .noMatch ∧ topClass cls w i l ≠ .varargMatch := by
    rcases hp with h | h <;> rw [h] <;> decide
  have hcomplete := isPartial_eq_false hcls.classifies htop.1 htop.2 hf
  obtain ⟨s', -, hhit⟩ := exists_mem_liveHits hcls.classifies htop.1 htop.2
  rcases hp with h | h
  · rw [h] at hle hcomplete hhit
    have hexact : cmdIpv6PrefixMatch (some w) = .exactMatch := by
      rcases cmdIpv6PrefixMatch_isVerdict (some w) with hno | hpart | hexact
      · simp [hits, hno] at hhit
      · simp [isPartial, hpart] at hcomplete
      · exact hexact
    have haddr (h : cls w s = .ipv4Match) : False :=
      hcls.ipv4 h (cmdIpv4Match_of_ipv6Prefix hexact)
    -- The classes from the top one down, an IPv4 address being none of them.
    generalize cls w s = t at hle hne haddr
    cases t with
    | noMatch => exact absurd rfl hne
    | extendMatch => exact .inl rfl
    | ipv4PrefixMatch => exact .inr ⟨.inr rfl, decide_eq_false (hw hexact)⟩
    | ipv4Match => exact (haddr rfl).elim
    | ipv6PrefixMatch => exact .inr ⟨.inl rfl, hcomplete⟩
    | _ => exact absurd hle (by decide)
  · rw [h] at hle hcomplete
    generalize cls w s = t at hle hne
    cases t with
    | noMatch => exact absurd rfl hne
    | extendMatch => exact .inl rfl
    | ipv4PrefixMatch => exact .inr ⟨.inr rfl, hcomplete⟩
    | _ => exact absurd hle (by decide)

/-- Restricting the classes lowers the class of an element. -/
theorem classAt_le_of_restricts (hcls : Restricts cls' cls) (b : CmdElement F) :
    classAt (cls' w) i b ≤ classAt (cls w) i b := by
  by_cases hne : classAt (cls' w) i b = .noMatch
  · rw [hne]
    exact bot_le
  · obtain ⟨d, hd, hdt⟩ := exists_cls_of_classAt hne
    have heq : cls' w d.cmd = cls w d.cmd := hcls.eq (hdt ▸ hne)
    rw [← hdt, heq]
    exact cls_le_classAt hd

/-- What matches with fewer classes matches with all of them. -/
theorem ne_noMatch_of_restricts (hcls : Restricts cls' cls) (h : classAt (cls' w) i b ≠ .noMatch) :
    classAt (cls w) i b ≠ .noMatch := fun hno =>
  h (le_bot_iff.1 ((classAt_le_of_restricts hcls b).trans hno.le))

/-- With fewer classes and fewer elements the top class is lower. -/
theorem topClass_le_of_restricts (hcls : Restricts cls' cls) (hk : k.Sublist l) :
    topClass cls' w i k ≤ topClass cls w i l :=
  top_le fun b hb => (classAt_le_of_restricts hcls b).trans (classAt_le_topClass (hk.subset hb))

/-- Fewer hits are not in conflict, either. -/
theorem conflict_eq_none_of_subset {t : MatchType} {hs hs' : List CString}
    (h : conflict w t none hs = none) (hsub : hs' ⊆ hs) : conflict w t none hs' = none := by
  rw [conflict] at h ⊢
  split_ifs at h with hp hnil hr
  · rw [if_pos hp, if_pos (List.subset_nil.1 (hnil ▸ hsub))]
  · rw [if_neg hp, if_neg]
    rintro ⟨hrem, hagree⟩
    refine hr ⟨hrem, fun hag => hagree fun a ha b hb => ?_⟩
    exact hag a (hsub ha) b (hsub hb)

/-- Where the top class is the same, fewer elements have no more conflicts. -/
theorem fail_eq_none_of_topClass_eq (hcls : Restricts cls' cls) (hk : k.Sublist l)
    (ht : topClass cls' w i k = topClass cls w i l) (hf : (cmdRound cls w i).fail l = none) :
    (cmdRound cls' w i).fail k = none := by
  rw [fail_eq_none_iff, roundConflict] at hf ⊢
  rw [ht]
  refine conflict_eq_none_of_subset hf fun s hs => ?_
  obtain ⟨b, hb, hd, hhit⟩ := mem_liveHits.1 hs
  obtain ⟨hbk, hne⟩ := List.mem_filter.1 hb
  refine mem_liveHits.2 ⟨b, List.mem_filter.2 ⟨hk.subset hbk, ?_⟩, hd, hhit⟩
  exact decide_eq_true (ne_noMatch_of_restricts hcls (of_decide_eq_true hne))

/-- A word taken for a variable is never ambiguous in the check. -/
theorem fail_eq_none_of_extendMatch (h : topClass cls w i l = .extendMatch) :
    (cmdRound cls w i).fail l = none := by
  rw [fail_eq_none_iff, roundConflict, h]
  simp [conflict, isPartial, remembers]

/-- Nor is a prefix that is complete. -/
theorem fail_eq_none_of_isPrefixClass (hp : IsPrefixClass (topClass cls w i l))
    (hc : isPartial w (topClass cls w i l) = false) : (cmdRound cls w i).fail l = none := by
  rw [fail_eq_none_iff, roundConflict]
  rcases hp with h | h
  all_goals
    rw [h] at hc ⊢
    simp [conflict, hc, remembers]

/-- An element that matches has the lowest class, if this is the top class. -/
theorem classAt_eq_of_topClass_eq_extendMatch (hek : e ∈ k)
    (hne : classAt (cls' w) i e ≠ .noMatch) (hx : topClass cls' w i k = .extendMatch) :
    classAt (cls' w) i e = .extendMatch := by
  have hle : classAt (cls' w) i e ≤ .extendMatch := hx ▸ classAt_le_topClass hek
  generalize classAt (cls' w) i e = t at hle hne
  cases t with
  | noMatch => exact absurd rfl hne
  | extendMatch => rfl
  | _ => exact absurd hle (by decide)

section Spares

variable (hcls : Restricts cls' cls)
include hcls

/-- A round with the same top class spares an element that has it. -/
theorem spares_go_of_topClass_eq (hk : k.Sublist l) (hek : e ∈ k)
    (hh : ¬(cmdRound cls w i).halts l) (hf : (cmdRound cls w i).fail l = none)
    (he : classAt (cls' w) i e = topClass cls w i l) (hne : classAt (cls' w) i e ≠ .noMatch)
    (ht : topClass cls' w i k = topClass cls w i l) :
    ¬(cmdRound cls' w i).halts k ∧ (cmdRound cls' w i).fail k = none ∧
      (cmdRound cls' w i).keep k e ∧
      ∀ b ∈ k, (cmdRound cls' w i).keep k b → (cmdRound cls w i).keep l b := by
  have hh' : ¬(cmdRound cls' w i).halts k := by
    rw [halts_iff] at hh ⊢
    rwa [ht]
  refine ⟨hh', fail_eq_none_of_topClass_eq hcls hk ht hf, ?_, fun b hb hkb => ?_⟩
  · exact keep_of_classAt hcls.classifies' hh' hek hne (.inl (he.trans ht.symm))
  · rw [keep_iff, ht] at hkb
    exact keep_iff.2 ⟨ne_noMatch_of_restricts hcls hkb.1, hkb.2⟩

/-- A round in which the word is a prefix spares an element that matches: all that match are
    kept, and they are variables, or take that prefix. -/
theorem spares_go_of_isPrefixClass (hw : NoHalfPrefix w) (hk : k.Sublist l) (hek : e ∈ k)
    (hh : ¬(cmdRound cls w i).halts l) (hf : (cmdRound cls w i).fail l = none)
    (hne : classAt (cls' w) i e ≠ .noMatch) (hp : IsPrefixClass (topClass cls w i l)) :
    ¬(cmdRound cls' w i).halts k ∧ (cmdRound cls' w i).fail k = none ∧
      (cmdRound cls' w i).keep k e ∧
      ∀ b ∈ k, (cmdRound cls' w i).keep k b → (cmdRound cls w i).keep l b := by
  have hkept (b : CmdElement F) (hb : b ∈ k) (hkb : (cmdRound cls' w i).keep k b) :
      (cmdRound cls w i).keep l b :=
    keep_of_classAt hcls.classifies hh (hk.subset hb)
      (ne_noMatch_of_restricts hcls (keep_iff.1 hkb).1) (.inr hp)
  have htop' : topClass cls' w i k ≠ .noMatch := topClass_ne_noMatch hek hne
  obtain ⟨-, -, d, -, hdt, -⟩ := exists_cls_eq_topClass htop'
  have heq : cls w d.cmd = topClass cls' w i k := (hcls.eq (hdt ▸ htop')).symm.trans hdt
  have hle : topClass cls' w i k ≤ topClass cls w i l := topClass_le_of_restricts hcls hk
  -- The top class of fewer elements is the class of some alternative, hence that of a variable or
  -- of a complete prefix.
  rcases cls_of_isPrefixClass hcls hw hp hf (heq ▸ hle) (heq ▸ htop') with hx | ⟨hp', hc'⟩
  · rw [heq] at hx
    have hh' : ¬(cmdRound cls' w i).halts k := by
      rw [halts_iff, hx]
      decide
    have hex := (classAt_eq_of_topClass_eq_extendMatch hek hne hx).trans hx.symm
    exact ⟨hh', fail_eq_none_of_extendMatch hx,
      keep_of_classAt hcls.classifies' hh' hek hne (.inl hex), hkept⟩
  · rw [heq] at hp' hc'
    have hh' : ¬(cmdRound cls' w i).halts k := by
      rw [halts_iff]
      rcases hp' with h | h <;> rw [h] <;> decide
    exact ⟨hh', fail_eq_none_of_isPrefixClass hp' hc',
      keep_of_classAt hcls.classifies' hh' hek hne (.inr hp'), hkept⟩

/-- The element with the vararg that halts a round is the only one that matches, and halts it
    without the others, too. -/
theorem spares_halt (he : classAt (cls' w) i e = classAt (cls w) i e) (hk : k.Sublist l)
    (hek : e ∈ k) (hh : (cmdRound cls w i).halts l)
    (hkeep : l.filter ((cmdRound cls w i).keep l) = [e]) :
    (cmdRound cls' w i).halts k ∧ k.filter ((cmdRound cls' w i).keep k) = [e] := by
  have htop : topClass cls w i l = .varargMatch := halts_iff.1 hh
  -- All that matches is kept where a round halts, so that only `e` matches.
  have hall {b : CmdElement F} (hb : b ∈ l) (hne : classAt (cls w) i b ≠ .noMatch) : b = e := by
    refine List.mem_singleton.1 (hkeep ▸ List.mem_filter.2 ⟨hb, ?_⟩)
    exact keep_iff.2 ⟨hne, .inl htop⟩
  have htopne : topClass cls w i l ≠ .noMatch := by
    rw [htop]
    decide
  obtain ⟨b, hb, -, -, -, hbt⟩ := exists_cls_eq_topClass htopne
  obtain rfl := hall hb (hbt ▸ htopne)
  have hvararg : classAt (cls' w) i b = .varargMatch := he.trans (hbt.trans htop)
  have htop' : topClass cls' w i k = .varargMatch :=
    le_antisymm ((topClass_le_of_restricts hcls hk).trans htop.le)
      (hvararg ▸ classAt_le_topClass hek)
  refine ⟨halts_iff.2 htop', ?_⟩
  have hsub : (k.filter ((cmdRound cls' w i).keep k)).Sublist
      (l.filter ((cmdRound cls w i).keep l)) := by
    refine filter_sublist_filter hk fun a ha hka => ?_
    exact keep_iff.2 ⟨ne_noMatch_of_restricts hcls (keep_iff.1 hka).1, .inl htop⟩
  rw [hkeep] at hsub
  refine (List.sublist_singleton.1 hsub).resolve_left (List.ne_nil_of_mem (a := b) ?_)
  refine List.mem_filter.2 ⟨hek, keep_iff.2 ⟨?_, .inl htop'⟩⟩
  rw [hvararg]
  decide

/-- A round without some of the other elements, for an element of the same class. -/
theorem cmdRound_spares (hw : NoHalfPrefix w)
    (he : classAt (cls' w) i e = classAt (cls w) i e) :
    (cmdRound cls w i).Spares e (cmdRound cls' w i) where
  go {l k} hk hek hh hf hkeep := by
    have hel : e ∈ l := hk.subset hek
    have hne : classAt (cls' w) i e ≠ .noMatch := he ▸ (keep_iff.1 hkeep).1
    rcases classAt_of_keep hcls.classifies hh hf hel hkeep with htop | hp
    · -- The top class is that of the element, with the others and without.
      have hle : topClass cls' w i k ≤ topClass cls w i l := topClass_le_of_restricts hcls hk
      have hge : classAt (cls w) i e ≤ topClass cls' w i k := he ▸ classAt_le_topClass hek
      exact spares_go_of_topClass_eq hcls hk hek hh hf (he.trans htop) hne
        (le_antisymm hle (htop ▸ hge))
    · exact spares_go_of_isPrefixClass hcls hw hk hek hh hf hne hp
  halt hk hek hh hkeep := spares_halt hcls he hk hek hh hkeep

end Spares

/-! ## Lines -/

/-- Round by round, the line spares the element among fewer ones, as long as its class stays the
    same. -/
theorem sparesFrom_cmdRounds (hcls : Restricts cls' cls) (hw : ∀ w ∈ vline, NoHalfPrefix w)
    (hclass : ∀ j w m, vline[j]? = some w → run (cmdRounds cls i (vline.take j)) l = .go m →
      classAt (cls' w) (i + j) e = classAt (cls w) (i + j) e) :
    SparesFrom e l (cmdRounds cls i vline) (cmdRounds cls' i vline) := by
  induction vline generalizing i l with
  | nil => exact .nil
  | cons w ws ih =>
    refine .cons (cmdRound_spares hcls (hw w List.mem_cons_self) (hclass 0 w l rfl rfl)) ?_
    intro l' hl'
    refine ih (fun w' hw' => hw w' (List.mem_cons_of_mem w hw')) fun j w' m hj hm => ?_
    have hgo : run (cmdRounds cls i ((w :: ws).take (j + 1))) l = .go m := by
      rw [List.take_succ_cons, cmdRounds, run, hl']
      exact hm
    have hsame := hclass (j + 1) w' m hj hgo
    rwa [← Nat.add_assoc, Nat.add_right_comm] at hsame

/-- What an executor selects, without some of the other elements, and with fewer
    alternatives that match, but for the element selected. -/
theorem cmdExecuteWith_restricts (hcls : Restricts cls' cls) (hw : ∀ w ∈ vline, NoHalfPrefix w)
    (hk : table'.Sublist table) (he : e ∈ table')
    (hclass : ∀ i w m, vline[i]? = some w → run (cmdRounds cls 0 (vline.take i)) table = .go m →
      classAt (cls' w) i e = classAt (cls w) i e)
    (h : (cmdExecuteWith (filterBy cls) table vline).Selects e argv) :
    (cmdExecuteWith (filterBy cls') table' vline).Selects e argv := by
  have hrounds : SparesFrom e table (cmdRounds cls 0 vline) (cmdRounds cls' 0 vline) :=
    sparesFrom_cmdRounds hcls hw fun i w m hi hm => by
      rw [Nat.zero_add]
      exact hclass i w m hi hm
  rw [cmdExecuteWith_selects] at h ⊢
  refine ⟨?_, h.2⟩
  have hfind := h.1
  rw [cmdFindElement_eq] at hfind ⊢
  obtain ⟨hgo, hhalt⟩ := run_spares hrounds hk he
  rcases hrun : run (cmdRounds cls 0 vline) table with m | m | ret
  · rw [hrun, cmdSelect_go] at hfind
    have hmem : e ∈ m.filter fun e => decide (vline.length ≥ e.cmdsize) :=
      hfind ▸ List.mem_singleton_self e
    obtain ⟨hem, hsize⟩ := List.mem_filter.1 hmem
    obtain ⟨m', hm', hsub, hem'⟩ := hgo m hrun hem
    rw [hm', cmdSelect_go]
    -- Among fewer elements no more are left, and `e` is one of them.
    have hone := hsub.filter fun e => decide (vline.length ≥ e.cmdsize)
    rw [hfind] at hone
    refine (List.sublist_singleton.1 hone).resolve_left (List.ne_nil_of_mem (a := e) ?_)
    exact List.mem_filter.2 ⟨hem', hsize⟩
  · rw [hrun, cmdSelect_halt] at hfind
    rw [hhalt (hrun.trans (congrArg _ hfind)), cmdSelect_halt]
  · rw [hrun] at hfind
    cases hfind

/-- What a line selects among more commands, it selects among fewer: installing a
    command does not turn a line over from one command to another. -/
theorem selects_of_sublist (hw : ∀ w ∈ vline, NoHalfPrefix w) (hk : table'.Sublist table)
    (he : e ∈ table') :
    ((cmdExecuteCommand table vline).Selects e argv →
      (cmdExecuteCommand table' vline).Selects e argv) ∧
    ((cmdExecuteCommandStrict table vline).Selects e argv →
      (cmdExecuteCommandStrict table' vline).Selects e argv) :=
  ⟨cmdExecuteWith_restricts completionClass_restricts hw hk he fun _ _ _ _ _ => rfl,
    cmdExecuteWith_restricts stringClass_restricts_self hw hk he fun _ _ _ _ _ => rfl⟩

/-- `show version` stays selected without the third command of the table. -/
theorem selects_of_sublist_show :
    (cmdExecuteCommand [showVersionCmd, getVersionCmd] (words ["show", "version"])).Selects
      showVersionCmd [] ∧
    (cmdExecuteCommandStrict [showVersionCmd, getVersionCmd] (words ["show", "version"])).Selects
      showVersionCmd [] := by
  have hw : ∀ w ∈ words ["show", "version"], NoHalfPrefix w := by decide
  have hk : [showVersionCmd, getVersionCmd].Sublist
      [showVersionDetailCmd, showVersionCmd, getVersionCmd] := List.sublist_cons_self _ _
  exact ⟨(selects_of_sublist hw hk List.mem_cons_self).1 (by decide +kernel),
    (selects_of_sublist hw hk List.mem_cons_self).2 (by decide +kernel)⟩

/-- A word may be both, which is why it matters. -/
example : ¬NoHalfPrefix "1.2/24".toList := by decide

end Mksh
