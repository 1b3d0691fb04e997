import Mksh.Command.Execute
import Mksh.Command.Round

/-!
# Dispatch as an elimination

The elements of a node are the candidates of an elimination, and the words of
a line its rounds (`cmdRounds`): a word whose top class is `varargMatch` halts
it, an ambiguous or incomplete one fails it. The line selects the only complete
element left, if there is exactly one (`cmdSelect`). This is what the matching
loop of an executor, with its vector of slots, computes (`cmdFindElement_eq`).

What holds of a round that does not fail, whatever the filter (`Classifies`):
the elements kept have the top class, or the top class is that of an address
prefix, and all the elements that match are kept (`classAt_of_keep`,
`keep_of_classAt`).
-/

namespace Mksh

open CString Elimination

variable {F : Type*} {cls : CString → CString → MatchType}

/-! ## Rounds -/

/-- The top class the live elements `l` receive from `command` at `index`. -/
def topClass (cls : CString → CString → MatchType) (command : CString) (index : ℕ)
    (l : List (CmdElement F)) : MatchType :=
  top (classAt (cls command) index) l

/-- The live elements that match `command` at `index`. -/
def matching (cls : CString → CString → MatchType) (command : CString) (index : ℕ)
    (l : List (CmdElement F)) : List (CmdElement F) :=
  l.filter fun e => classAt (cls command) index e ≠ .noMatch

/-- The early return of the ambiguity check, for the top class. -/
def roundConflict (cls : CString → CString → MatchType) (command : CString) (index : ℕ)
    (l : List (CmdElement F)) : Option ℤ :=
  conflict command (topClass cls command index l) none
    (liveHits command (topClass cls command index l) index (matching cls command index l))

/-- The error code for an early return of the ambiguity check. -/
def ambiguousStatus (ret : ℤ) : ℤ := if ret = 1 then cmdErrAmbiguous else cmdErrNoMatch

/-- The round of the word `command`, at `index`. -/
def cmdRound (cls : CString → CString → MatchType) (command : CString) (index : ℕ) :
    Round (CmdElement F) ℤ where
  halts l := topClass cls command index l = .varargMatch
  fail l := (roundConflict cls command index l).map ambiguousStatus
  keep l e := classAt (cls command) index e ≠ .noMatch &&
    (topClass cls command index l = .varargMatch ||
      hitsAt command (topClass cls command index l) (e.item index) ≠ [])

/-- The rounds of the words `vline`, from `index` on. -/
def cmdRounds (cls : CString → CString → MatchType) : ℕ → List CString →
    List (Round (CmdElement F) ℤ)
  | _, [] => []
  | index, command :: vline => cmdRound cls command index :: cmdRounds cls (index + 1) vline

/-- The element selected in the end, the line having `n` words. -/
def cmdSelect (n : ℕ) : Verdict (CmdElement F) ℤ → Except ℤ (CmdElement F)
  | .fail ret => .error ret
  | .halt [e] => .ok e
  | .halt [] => .error cmdErrNoMatch
  | .halt _ => .error cmdErrAmbiguous
  | .go l =>
    match l.filter fun e => n ≥ e.cmdsize with
    | [e] => .ok e
    | [] => .error (if l = [] then cmdErrNoMatch else cmdErrIncomplete)
    | _ => .error cmdErrAmbiguous

/-- After a vararg, the selection asks for the only element left. -/
theorem cmdSelect_halt {n : ℕ} {l : List (CmdElement F)} {e : CmdElement F} :
    cmdSelect n (.halt l) = .ok e ↔ l = [e] := by
  rcases l with _ | ⟨a, _ | ⟨b, l⟩⟩ <;> simp [cmdSelect]

/-- Else, it asks for the only one that is complete. -/
theorem cmdSelect_go {n : ℕ} {l : List (CmdElement F)} {e : CmdElement F} :
    cmdSelect n (.go l) = .ok e ↔ (l.filter fun e => n ≥ e.cmdsize) = [e] := by
  rw [cmdSelect]
  generalize List.filter _ l = k
  rcases k with _ | ⟨a, _ | ⟨b, k⟩⟩ <;> simp

/-- The rounds of a longer line are those of its parts, the second ones shifted. -/
theorem cmdRounds_append (index : ℕ) (ws ws' : List CString) :
    cmdRounds (F := F) cls index (ws ++ ws') =
      cmdRounds cls index ws ++ cmdRounds cls (index + ws.length) ws' := by
  induction ws generalizing index with
  | nil => rfl
  | cons w ws ih =>
    rw [List.cons_append, cmdRounds, cmdRounds, ih, List.length_cons, List.cons_append]
    congr 3
    omega

/-- There is one round for each word. -/
@[simp]
theorem length_cmdRounds (index : ℕ) (ws : List CString) :
    (cmdRounds (F := F) cls index ws).length = ws.length := by
  induction ws generalizing index with
  | nil => rfl
  | cons w ws ih => rw [cmdRounds, List.length_cons, List.length_cons, ih]

/-- The round at a position is the one of the word there. -/
theorem cmdRounds_getElem? (index : ℕ) (ws : List CString) (i : ℕ) :
    (cmdRounds (F := F) cls index ws)[i]? = ws[i]?.map fun w => cmdRound cls w (index + i) := by
  induction ws generalizing index i with
  | nil => rfl
  | cons w ws ih =>
    cases i with
    | zero => rfl
    | succ i =>
      rw [cmdRounds, List.getElem?_cons_succ, List.getElem?_cons_succ, ih, Nat.add_assoc,
        Nat.add_comm 1]

/-- The rounds of the first words are the first rounds. -/
theorem cmdRounds_take (index : ℕ) (ws : List CString) (i : ℕ) :
    (cmdRounds (F := F) cls index ws).take i = cmdRounds cls index (ws.take i) := by
  induction ws generalizing index i with
  | nil => simp [cmdRounds]
  | cons w ws ih =>
    cases i with
    | zero => rfl
    | succ i => rw [cmdRounds, List.take_succ_cons, List.take_succ_cons, ih, cmdRounds]

/-! ## Refinement -/

/-- A filter returns the top class of the live elements. -/
theorem filterBy_fst (command : CString) (v : CmdVector F) (index : ℕ) :
    (filterBy cls command v index).1 = topClass cls command index v.reduceOption :=
  (filterVector_fst _ _ _ _).trans (max_eq_right bot_le)

/-- It leaves the live elements that match. -/
theorem reduceOption_filterBy (command : CString) (v : CmdVector F) (index : ℕ) :
    (filterBy cls command v index).2.reduceOption = matching cls command index v.reduceOption :=
  reduceOption_filterVector _ _ _ _

/-- The ambiguity check returns early with 1 or 2 only. -/
theorem conflict_eq_some {command : CString} {type : MatchType} {matched : Option CString}
    {hs : List CString} {ret : ℤ} (h : conflict command type matched hs = some ret) :
    ret = 1 ∨ ret = 2 := by
  rw [conflict] at h
  split_ifs at h
  · exact .inr (Option.some.inj h).symm
  · exact .inl (Option.some.inj h).symm

/-- The verdict `vd`, after `p` rounds, is what the matching loop returns when
    started on `n` words at `index`. -/
inductive Refines (index n p : ℕ) :
    Except ℤ (ℕ × MatchType × CmdVector F) → Verdict (CmdElement F) ℤ → Prop
  | fail {ret : ℤ} : Refines index n p (.error ret) (.fail ret)
  | halt {k : ℕ} {v : CmdVector F} : k + 1 = index + p →
      Refines index n p (.ok (k, .varargMatch, v)) (.halt v.reduceOption)
  | go {type : MatchType} {v : CmdVector F} : type ≠ .varargMatch →
      Refines index n p (.ok (index + n, type, v)) (.go v.reduceOption)

/-- The loop that starts one word further on refines one round more. -/
theorem Refines.succ {index n p : ℕ} {r : Except ℤ (ℕ × MatchType × CmdVector F)}
    {vd : Verdict (CmdElement F) ℤ} (h : Refines (index + 1) n p r vd) :
    Refines index (n + 1) (p + 1) r vd := by
  cases h with
  | fail => exact .fail
  | halt hk => exact .halt (by omega)
  | go hm =>
    rw [Nat.add_assoc, Nat.add_comm 1]
    exact .go hm

section Play

variable {w : CString} {index : ℕ} {v : CmdVector F}

/-- Where the filter meets a vararg, the round halts. -/
theorem play_of_vararg (h : topClass cls w index v.reduceOption = .varargMatch) :
    (cmdRound cls w index).play v.reduceOption = .halt (filterBy cls w v index).2.reduceOption := by
  rw [reduceOption_filterBy, Round.play_halt_iff]
  refine ⟨by simpa [cmdRound] using h, List.filter_congr fun e _ => ?_⟩
  simp [cmdRound, h]

/-- Where the ambiguity check returns early, the round fails. -/
theorem play_of_conflict (h : topClass cls w index v.reduceOption ≠ .varargMatch) {ret : ℤ}
    (hc : roundConflict cls w index v.reduceOption = some ret) :
    (cmdRound cls w index).play v.reduceOption = .fail (ambiguousStatus ret) := by
  simp [Round.play, cmdRound, h, hc]

/-- Else, the round goes on with the elements that have a hit. -/
theorem play_of_agree (h : topClass cls w index v.reduceOption ≠ .varargMatch)
    (hc : roundConflict cls w index v.reduceOption = none) :
    (cmdRound cls w index).play v.reduceOption =
      .go (ambiguousVector w index (topClass cls w index v.reduceOption)
        (filterBy cls w v index).2 none).2.reduceOption := by
  have hc' := hc
  rw [roundConflict, ← reduceOption_filterBy] at hc'
  rw [reduceOption_ambiguousVector hc', reduceOption_filterBy, matching, List.filter_filter,
    Round.play_go_iff]
  refine ⟨by simpa [cmdRound] using h, by simp [cmdRound, hc], List.filter_congr fun e _ => ?_⟩
  simp [cmdRound, h, Bool.and_comm]

/-- What the check returns depends on the live elements only. -/
theorem isCmdAmbiguous_fst :
    (isCmdAmbiguous w (filterBy cls w v index).2 index
      (topClass cls w index v.reduceOption)).1 =
      (roundConflict cls w index v.reduceOption).getD 0 := by
  rw [isCmdAmbiguous, ambiguousVector_fst, reduceOption_filterBy, ← roundConflict]

end Play

/-- The matching loop plays the rounds of the words. -/
theorem cmdMatchLoop_refines (cls : CString → CString → MatchType) (vline : List CString)
    (index : ℕ) (m : MatchType) (v : CmdVector F) (hm : m ≠ .varargMatch) :
    Refines index vline.length (played (cmdRounds cls index vline) v.reduceOption).length
      (cmdMatchLoop (filterBy cls) vline index m v)
      (run (cmdRounds cls index vline) v.reduceOption) := by
  induction vline generalizing index m v with
  | nil => exact .go hm
  | cons w vline ih =>
    simp only [cmdMatchLoop, filterBy_fst, cmdRounds, run, played, List.length_cons,
      isCmdAmbiguous_fst]
    by_cases hv : topClass cls w index v.reduceOption = .varargMatch
    · rw [if_pos hv, play_of_vararg hv, hv]
      exact .halt (by simp)
    rw [if_neg hv]
    cases hc : roundConflict cls w index v.reduceOption with
    | some ret =>
      rw [play_of_conflict hv hc]
      rcases conflict_eq_some hc with rfl | rfl
      · exact .fail
      · exact .fail
    | none =>
      rw [play_of_agree hv hc]
      exact (ih _ _ _ hv).succ

/-- The element counts as complete. -/
def isComplete (type : MatchType) (index : ℕ) (e : CmdElement F) : Bool :=
  type = .varargMatch ∨ index ≥ e.cmdsize

/-- The loop counting the elements left, in terms of the live ones. -/
theorem countMatched_eq (type : MatchType) (index : ℕ) (v : CmdVector F) (c : Counts F) :
    countMatched type index v c =
      { matchedElement := (v.reduceOption.filter (isComplete type index)).getLast?.or
          c.matchedElement
        matchedCount := c.matchedCount + (v.reduceOption.filter (isComplete type index)).length
        incompleteCount := c.incompleteCount +
          (v.reduceOption.filter fun e => !isComplete type index e).length } := by
  -- The counts grow from the left, and the element that is remembered is the last one.
  induction v generalizing c with
  | nil => rfl
  | cons s v ih =>
    rcases s with _ | e
    · exact ih c
    · rw [countMatched, List.reduceOption_cons_of_some]
      by_cases he : type = .varargMatch ∨ index ≥ e.cmdsize
      · have he' : isComplete type index e = true := decide_eq_true he
        rw [if_pos he, ih, List.filter_cons_of_pos he', List.filter_cons_of_neg (by simp [he'])]
        simp only [List.getLast?_cons, List.length_cons, Counts.mk.injEq, and_true]
        refine ⟨?_, by omega⟩
        cases (v.reduceOption.filter (isComplete type index)).getLast? <;> rfl
      · have he' : isComplete type index e = false := decide_eq_false he
        rw [if_neg he, ih, List.filter_cons_of_neg (by simp [he']),
          List.filter_cons_of_pos (by simp [he']), List.length_cons]
        simp only [Counts.mk.injEq, true_and]
        omega

/-- The selection by the number of complete elements, as one case distinction. -/
theorem checkMatched_eq (type : MatchType) (index : ℕ) (v : CmdVector F) :
    checkMatched (countMatched type index v {}) =
      match v.reduceOption.filter (isComplete type index) with
      | [e] => .ok e
      | [] => .error (if v.reduceOption = [] then cmdErrNoMatch else cmdErrIncomplete)
      | _ => .error cmdErrAmbiguous := by
  rw [countMatched_eq, checkMatched]
  rcases hc : v.reduceOption.filter (isComplete type index) with _ | ⟨e, _ | ⟨e', l⟩⟩
  · -- No element is complete: all of those left are incomplete.
    have hi : (v.reduceOption.filter fun e => !isComplete type index e) = v.reduceOption := by
      rw [List.filter_eq_self]
      rw [List.filter_eq_nil_iff] at hc
      simpa using hc
    rw [hi]
    cases v.reduceOption <;> simp
  · simp
  · simp

/-- In a copy of the table every element is live. -/
theorem reduceOption_vectorCopy (table : List (CmdElement F)) :
    (vectorCopy table).reduceOption = table := by
  induction table with
  | nil => rfl
  | cons e table ih => exact congrArg (e :: ·) ih

/-- An executor selects what is left of the elimination. -/
theorem cmdFindElement_eq (table : List (CmdElement F)) (vline : List CString) :
    cmdFindElement (filterBy cls) table vline =
      cmdSelect vline.length (run (cmdRounds cls 0 vline) table) := by
  have h := cmdMatchLoop_refines cls vline 0 .noMatch (vectorCopy table) (by decide)
  rw [reduceOption_vectorCopy] at h
  rw [cmdFindElement]
  generalize run (cmdRounds cls 0 vline) table = vd at h
  generalize cmdMatchLoop (filterBy cls) vline 0 .noMatch (vectorCopy table) = r at h
  cases h with
  | fail => rfl
  | @halt k v hk =>
    dsimp only
    -- After a vararg, every element counts as complete.
    rw [checkMatched_eq, List.filter_eq_self.2 (by simp [isComplete])]
    rcases hv : v.reduceOption with _ | ⟨e, _ | ⟨e', l⟩⟩
    · rfl
    · rfl
    · rfl
  | @go type v htype =>
    dsimp only
    rw [checkMatched_eq, Nat.zero_add, cmdSelect]
    have hc : isComplete (F := F) type vline.length =
        fun e => decide (vline.length ≥ e.cmdsize) := by
      funext e
      simp [isComplete, htype]
    rw [hc]

/-! ## What a round keeps -/

/-- What the classes of a filter must satisfy: varargs are the alternatives of
    class `varargMatch`, and an alternative hits for its own class. -/
structure Classifies (cls : CString → CString → MatchType) : Prop where
  vararg : ∀ {w s : CString}, cls w s = .varargMatch ↔ cmdVararg s
  exact : ∀ {w s : CString}, cls w s = .exactMatch ↔ IsKeyword s ∧ w = s
  hit : ∀ {w s : CString} {t : MatchType}, cls w s = t → t ≠ .noMatch → t ≠ .varargMatch →
    hits w t s

/-- The classes of the address prefixes, for which the ambiguity check does not
    look at the alternatives. -/
def IsPrefixClass (t : MatchType) : Prop := t = .ipv6PrefixMatch ∨ t = .ipv4PrefixMatch

/-- The hits of the live elements, as strings. -/
theorem mem_liveHits {w : CString} {t : MatchType} {i : ℕ} {l : List (CmdElement F)} {s : CString} :
    s ∈ liveHits w t i l ↔ ∃ e ∈ l, (∃ d ∈ e.item i, d.cmd = s) ∧ hits w t s := by
  simp [liveHits, hitsAt]

/-- The class of an element is the one of some alternative. -/
theorem exists_cls_of_classAt {w : CString} {i : ℕ} {e : CmdElement F}
    (h : classAt (cls w) i e ≠ .noMatch) : ∃ d ∈ e.item i, cls w d.cmd = classAt (cls w) i e :=
  exists_eq_top h

/-- No alternative has a higher class than its element. -/
theorem cls_le_classAt {w : CString} {i : ℕ} {e : CmdElement F} {d : Desc} (hd : d ∈ e.item i) :
    cls w d.cmd ≤ classAt (cls w) i e :=
  le_top (g := fun d : Desc => cls w d.cmd) hd

section Round

variable {w : CString} {i : ℕ} {l : List (CmdElement F)} {e : CmdElement F}

/-- A round halts iff the top class is that of a vararg. -/
theorem halts_iff : (cmdRound cls w i).halts l ↔ topClass cls w i l = .varargMatch := by
  simp [cmdRound]

/-- It does not fail iff the check does not return early. -/
theorem fail_eq_none_iff : (cmdRound cls w i).fail l = none ↔ roundConflict cls w i l = none := by
  simp [cmdRound]

/-- It keeps an element that matches, and that hits unless the round halts. -/
theorem keep_iff : (cmdRound cls w i).keep l e ↔ classAt (cls w) i e ≠ .noMatch ∧
    (topClass cls w i l = .varargMatch ∨ ∃ d ∈ e.item i, hits w (topClass cls w i l) d.cmd) := by
  simp [cmdRound, hitsAt]

/-- No live element has a class above the top. -/
theorem classAt_le_topClass (he : e ∈ l) : classAt (cls w) i e ≤ topClass cls w i l := le_top he

/-- Where an element matches, so does the top class. -/
theorem topClass_ne_noMatch (he : e ∈ l) (hne : classAt (cls w) i e ≠ .noMatch) :
    topClass cls w i l ≠ .noMatch := fun h =>
  hne (le_bot_iff.1 ((classAt_le_topClass he).trans h.le))

/-- Some live element has an alternative of the top class. -/
theorem exists_cls_eq_topClass (h : topClass cls w i l ≠ .noMatch) :
    ∃ e ∈ l, ∃ d ∈ e.item i, cls w d.cmd = topClass cls w i l ∧
      classAt (cls w) i e = topClass cls w i l := by
  obtain ⟨e, he, het⟩ := exists_eq_top h
  rw [← topClass] at het
  obtain ⟨d, hd, hdt⟩ := exists_cls_of_classAt (het ▸ h)
  exact ⟨e, he, d, hd, hdt.trans het, het⟩

/-- Unless the top class is one for which variables or any alternative hit, the
    hits of a round are the same. -/
theorem eq_of_hits (hf : (cmdRound cls w i).fail l = none) {s s' : CString}
    (hp : ¬IsPrefixClass (topClass cls w i l)) (hx : topClass cls w i l ≠ .extendMatch)
    (hs : s ∈ liveHits w (topClass cls w i l) i (matching cls w i l))
    (hs' : s' ∈ liveHits w (topClass cls w i l) i (matching cls w i l)) : s = s' := by
  rw [fail_eq_none_iff, roundConflict] at hf
  have hh := (mem_liveHits.1 hs).choose_spec.2.2
  have hh' := (mem_liveHits.1 hs').choose_spec.2.2
  -- A remembered class: the check has seen to it.
  have hrem (h : remembers (topClass cls w i l) = true) : s = s' := by
    rw [conflict] at hf
    split_ifs at hf with h1 h2 h3
    · rw [h2] at hs; exact absurd hs List.not_mem_nil
    · simp only [h, true_and, Option.toList_none, List.nil_append, not_not] at h3
      exact h3 s hs s' hs'
  cases ht : topClass cls w i l with
  | exactMatch =>
    rw [ht] at hh hh'
    simp only [hits, Bool.and_eq_true, decide_eq_true_eq, strcmp_eq_zero] at hh hh'
    exact hh.2.symm.trans hh'.2
  | partlyMatch => exact hrem (by rw [ht]; rfl)
  | rangeMatch => exact hrem (by rw [ht]; rfl)
  | ipv6Match =>
    rw [ht] at hh hh'
    exact (cmdIpv6_iff.1 hh).trans (cmdIpv6_iff.1 hh').symm
  | ipv4Match =>
    rw [ht] at hh hh'
    exact (cmdIpv4_iff.1 hh).trans (cmdIpv4_iff.1 hh').symm
  | ipv6PrefixMatch => exact absurd (.inl ht) hp
  | ipv4PrefixMatch => exact absurd (.inr ht) hp
  | extendMatch => exact absurd ht hx
  | noMatch => rw [ht] at hh; cases hh
  | varargMatch => rw [ht] at hh; cases hh

variable (hcls : Classifies cls) (hh : ¬(cmdRound cls w i).halts l)
include hcls hh

/-- The elements kept have the top class, unless it is that of a prefix. -/
theorem classAt_of_keep (hf : (cmdRound cls w i).fail l = none) (he : e ∈ l)
    (hk : (cmdRound cls w i).keep l e) :
    classAt (cls w) i e = topClass cls w i l ∨ IsPrefixClass (topClass cls w i l) := by
  by_cases hp : IsPrefixClass (topClass cls w i l)
  · exact .inr hp
  refine .inl (le_antisymm (classAt_le_topClass he) ?_)
  obtain ⟨hne, hk⟩ := keep_iff.1 hk
  rw [halts_iff] at hh
  obtain ⟨d, hd, hdh⟩ := hk.resolve_left hh
  have htop : topClass cls w i l ≠ .noMatch := topClass_ne_noMatch he hne
  by_cases hx : topClass cls w i l = .extendMatch
  · -- The lowest class there is.
    rw [hx]
    cases hc : classAt (cls w) i e <;> first | exact absurd hc hne | decide
  obtain ⟨e', he', d', hd', hdt, het⟩ := exists_cls_eq_topClass htop
  have hmem (a : CmdElement F) (ha : a ∈ l) (hac : classAt (cls w) i a ≠ .noMatch) :
      a ∈ matching cls w i l := List.mem_filter.2 ⟨ha, by simpa using hac⟩
  have heq : d.cmd = d'.cmd := eq_of_hits hf hp hx
    (mem_liveHits.2 ⟨e, hmem e he hne, ⟨d, hd, rfl⟩, hdh⟩)
    (mem_liveHits.2 ⟨e', hmem e' he' (het ▸ htop), ⟨d', hd', rfl⟩, hcls.hit hdt htop hh⟩)
  rw [← hdt, ← heq]
  exact cls_le_classAt hd

/-- The elements of the top class are kept; for that of a prefix, all the
    elements that match are. -/
theorem keep_of_classAt (he : e ∈ l) (hne : classAt (cls w) i e ≠ .noMatch)
    (ht : classAt (cls w) i e = topClass cls w i l ∨ IsPrefixClass (topClass cls w i l)) :
    (cmdRound cls w i).keep l e := by
  rw [halts_iff] at hh
  have htop : topClass cls w i l ≠ .noMatch := topClass_ne_noMatch he hne
  refine keep_iff.2 ⟨hne, .inr ?_⟩
  rcases ht with ht | ht
  · obtain ⟨d, hd, hdt⟩ := exists_cls_of_classAt hne
    exact ⟨d, hd, hcls.hit (hdt.trans ht) htop hh⟩
  · -- For a prefix, whether an alternative hits depends on the word only.
    obtain ⟨d, hd, -⟩ := exists_cls_of_classAt hne
    obtain ⟨_, -, d', -, hdt, -⟩ := exists_cls_eq_topClass htop
    have hhit := hcls.hit hdt htop hh
    refine ⟨d, hd, ?_⟩
    rcases ht with ht | ht
    · rw [ht] at hhit ⊢; exact hhit
    · rw [ht] at hhit ⊢; exact hhit

/-- An element that matches, and is dropped, has a lower class than one kept. -/
theorem classAt_lt_of_keep (hf : (cmdRound cls w i).fail l = none) {a : CmdElement F}
    (he : e ∈ l) (hk : (cmdRound cls w i).keep l e) (ha : a ∈ l)
    (hne : classAt (cls w) i a ≠ .noMatch) (hka : ¬(cmdRound cls w i).keep l a) :
    classAt (cls w) i a < classAt (cls w) i e := by
  have hp : ¬IsPrefixClass (topClass cls w i l) := fun hp =>
    hka (keep_of_classAt hcls hh ha hne (.inr hp))
  rw [(classAt_of_keep hcls hh hf he hk).resolve_right hp]
  exact lt_of_le_of_ne (classAt_le_topClass ha) fun heq =>
    hka (keep_of_classAt hcls hh ha hne (.inl heq))

end Round

/-- The classes of `cmd_filter_by_completion` classify words. -/
theorem completionClass_classifies : Classifies completionClass where
  vararg {w s} := by
    refine ⟨?_, completionClass_of_cmdVararg⟩
    intro h
    have hs := completionClass_spec w s
    rwa [h] at hs
  exact {w s} := by
    constructor
    · intro h
      have hs := completionClass_spec w s
      rwa [h] at hs
    · rintro ⟨hs, hw⟩
      rw [completionClass_of_isKeyword hs, hw, if_pos (List.prefix_refl s), if_pos rfl]
  hit {w s t} h hn hv := by
    have := completionClass_spec w s
    rw [h] at this
    cases t <;> simp_all [hits, IsKeyword, IsPlainVariable]
    tauto

/-- So do those of `cmd_filter_by_string`. -/
theorem stringClass_classifies : Classifies stringClass where
  vararg {w s} := by
    refine ⟨?_, stringClass_of_cmdVararg⟩
    intro h
    have hs := stringClass_spec w s
    rwa [h] at hs
  exact {w s} := by
    constructor
    · intro h
      have hs := stringClass_spec w s
      rwa [h] at hs
    · rintro ⟨hs, hw⟩
      rw [stringClass_of_isKeyword hs, if_pos hw]
  hit {w s t} h hn hv := by
    have := stringClass_spec w s
    rw [h] at this
    cases t <;> simp_all [hits, IsKeyword, IsPlainVariable]
    tauto

end Mksh
