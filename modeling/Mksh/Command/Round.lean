import Mksh.Command.Filter
import Mksh.Lib.Elimination

/-!
# Words as rounds of an elimination

The filters and the ambiguity check, as they act on the live elements of a
vector, i.e., on those not `NULL`ed: a word is a round of an elimination, in
which the elements are graded by the class of their item at the position of the
word (`classAt`).

* The filter keeps the elements of a class other than `noMatch`, and gives the
  top class (`filterVector_fst`, `reduceOption_filterVector`).
* The ambiguity check, for the top class, keeps the elements with an
  alternative that hits (`hits`), unless it returns early, for a `conflict`
  between the hits (`ambiguousVector_fst`, `reduceOption_ambiguousVector`).
-/

namespace Mksh

open CString Elimination

variable {F : Type*}

/-! ## The filter -/

/-- The class of an item: the top class of its alternatives. -/
def itemClass (cls : CString → MatchType) (item : List Desc) : MatchType :=
  top (fun desc => cls desc.cmd) item

/-- The class of an element for a word at `index`. -/
def classAt (cls : CString → MatchType) (index : ℕ) (e : CmdElement F) : MatchType :=
  itemClass cls (e.item index)

/-- An item does not match iff none of its alternatives does. -/
theorem itemClass_eq_noMatch_iff {cls : CString → MatchType} {item : List Desc} :
    itemClass cls item = .noMatch ↔ ∀ desc ∈ item, cls desc.cmd = .noMatch :=
  top_eq_bot_iff

/-- The loop over an item raises the class, and counts the alternatives that match. -/
theorem filterDescvec_eq (cls : CString → MatchType) (descvec : List Desc) (m : MatchType)
    (n : ℕ) : filterDescvec cls descvec m n = (max m (itemClass cls descvec),
      n + (descvec.filter fun desc => cls desc.cmd ≠ .noMatch).length) := by
  induction descvec generalizing m n with
  | nil => exact Prod.ext (max_eq_left bot_le).symm rfl
  | cons desc descvec ih =>
    rw [filterDescvec, itemClass, top_cons, ← itemClass]
    by_cases hd : cls desc.cmd = .noMatch
    · rw [if_pos hd, ih, hd, List.filter_cons_of_neg (by simpa using hd),
        ← MatchType.bot_eq, max_eq_right bot_le]
    · rw [if_neg hd, ih, List.filter_cons_of_pos (by simpa using hd), List.length_cons,
        ← max_def_lt, max_assoc]
      congr 1
      omega

/-- No alternative is counted iff the item does not match. -/
theorem length_matched_eq_zero_iff {cls : CString → MatchType} {item : List Desc} :
    (item.filter fun desc => cls desc.cmd ≠ .noMatch).length = 0 ↔
      itemClass cls item = .noMatch := by
  rw [itemClass_eq_noMatch_iff, List.length_eq_zero_iff, List.filter_eq_nil_iff]
  simp

/-- The loop over the elements raises the class to the top one. -/
theorem filterVector_fst (cls : CString → MatchType) (index : ℕ) (v : CmdVector F)
    (m : MatchType) :
    (filterVector cls index v m).1 = max m (top (classAt cls index) v.reduceOption) := by
  induction v generalizing m with
  | nil => exact (max_eq_left bot_le).symm
  | cons s v ih =>
    cases s with
    | none => rw [filterVector, List.reduceOption_cons_of_none, ← ih]
    | some e =>
      rw [List.reduceOption_cons_of_some, top_cons, classAt, CmdElement.item, filterVector]
      cases e.strvec[index]? with
      | none => exact (ih m).trans (congrArg (max m) (max_eq_right bot_le).symm)
      | some descvec =>
        simp only [filterDescvec_eq]
        exact (ih _).trans (max_assoc _ _ _)

/-- It leaves the elements that match. -/
theorem reduceOption_filterVector (cls : CString → MatchType) (index : ℕ) (v : CmdVector F)
    (m : MatchType) : (filterVector cls index v m).2.reduceOption =
      v.reduceOption.filter fun e => classAt cls index e ≠ .noMatch := by
  induction v generalizing m with
  | nil => rfl
  | cons s v ih =>
    cases s with
    | none => rw [List.reduceOption_cons_of_none, ← ih m, filterVector,
        List.reduceOption_cons_of_none]
    | some e =>
      rw [List.reduceOption_cons_of_some, List.filter_cons, classAt, CmdElement.item, filterVector]
      cases e.strvec[index]? with
      | none => exact ih m
      | some descvec =>
        simp only [filterDescvec_eq, Nat.zero_add, Option.getD_some]
        by_cases hd : itemClass cls descvec = .noMatch
        · rw [if_pos (length_matched_eq_zero_iff.2 hd), if_neg (by simpa using hd),
            List.reduceOption_cons_of_none, ih]
        · rw [if_neg (fun h => hd (length_matched_eq_zero_iff.1 h)), if_pos (by simpa using hd),
            List.reduceOption_cons_of_some, ih]

/-! ## The ambiguity check -/

/-- The alternative `str` counts as a match, for the class `type`. -/
def hits (command : CString) (type : MatchType) (str : CString) : Bool :=
  match type with
  | .exactMatch => !(cmdOption str || cmdVariable str) && strcmp command str = 0
  | .partlyMatch =>
    !(cmdOption str || cmdVariable str) && strncmp command str command.length = 0
  | .rangeMatch => cmdRangeMatch str (some command)
  | .ipv6Match => cmdIpv6 str
  | .ipv6PrefixMatch => cmdIpv6PrefixMatch (some command) ≠ .noMatch
  | .ipv4Match => cmdIpv4 str
  | .ipv4PrefixMatch => cmdIpv4PrefixMatch (some command) ≠ .noMatch
  | .extendMatch => cmdOption str || cmdVariable str
  | .noMatch | .varargMatch => false

/-- Matches of the class `type` must be the same alternative. -/
def remembers (type : MatchType) : Bool := type = .partlyMatch || type = .rangeMatch

/-- Matches of the class `type` are partial ones. -/
def isPartial (command : CString) (type : MatchType) : Bool :=
  match type with
  | .ipv6PrefixMatch => cmdIpv6PrefixMatch (some command) = .partlyMatch
  | .ipv4PrefixMatch => cmdIpv4PrefixMatch (some command) = .partlyMatch
  | _ => false

/-- The alternatives of an item that hit. -/
def hitsAt (command : CString) (type : MatchType) (item : List Desc) : List CString :=
  (item.map Desc.cmd).filter (hits command type)

/-- What the check returns, if it returns early, given the hits `hs` to come
    and what it remembers. -/
def conflict (command : CString) (type : MatchType) (matched : Option CString)
    (hs : List CString) : Option ℤ :=
  if isPartial command type then if hs = [] then none else some 2
  else if remembers type ∧ ¬Agree (matched.toList ++ hs) then some 1
  else none

/-- What the check remembers after the hits `hs`. -/
def remembered (type : MatchType) (matched : Option CString) (hs : List CString) : Option CString :=
  if remembers type then (matched.toList ++ hs).getLast? else matched

/-- What is remembered alone agrees with itself. -/
theorem agree_toList (matched : Option CString) : Agree matched.toList := by
  cases matched with
  | none => exact agree_nil
  | some s => exact agree_singleton

theorem conflict_nil (command : CString) (type : MatchType) (matched : Option CString) :
    conflict command type matched [] = none := by
  simp [conflict, agree_toList]

theorem remembered_nil (type : MatchType) (matched : Option CString) :
    remembered type matched [] = matched := by
  cases matched <;> simp [remembered]

/-- The hits of two items conflict in the first one, or after it. -/
theorem conflict_append (command : CString) (type : MatchType) (matched : Option CString)
    (hs hs' : List CString) : conflict command type matched (hs ++ hs') =
      match conflict command type matched hs with
      | some ret => some ret
      | none => conflict command type (remembered type matched hs) hs' := by
  by_cases hp : isPartial command type
  · by_cases hnil : hs = [] <;> simp [conflict, hp, hnil]
  by_cases hr : remembers type
  · have happ := agree_append (matched.toList ++ hs) hs'
    rw [List.append_assoc] at happ
    by_cases ha : Agree (matched.toList ++ hs) <;> simp [conflict, hp, hr, happ, ha, remembered]
  · simp [conflict, hp, hr]

/-- A hit is remembered if it agrees with the one before. -/
theorem remember_eq (matched : Option CString) (str : CString) (n : ℕ) :
    remember matched str n = if Agree (matched.toList ++ [str]) then .ok (some str, n + 1)
      else .error 1 := by
  cases matched with
  | none => exact (if_pos agree_singleton).symm
  | some s => by_cases hs : s = str <;> simp [remember, hs]

/-- What is remembered after two items. -/
theorem remembered_append (type : MatchType) (matched : Option CString) (hs hs' : List CString) :
    remembered type matched (hs ++ hs') = remembered type (remembered type matched hs) hs' := by
  by_cases hr : remembers type
  · simp only [remembered, if_pos hr, ← List.append_assoc, List.getLast?_append, Option.toList]
    cases hs'.getLast? <;> cases hs.getLast? <;> cases matched <;> simp
  · simp [remembered, hr]

/-- The switch on the match type, in terms of hits. -/
theorem ambiguousDesc_eq (command : CString) (type : MatchType) (str : CString)
    (matched : Option CString) (n : ℕ) : ambiguousDesc command type str matched n =
      if hits command type str then
        match conflict command type matched [str] with
        | some ret => .error ret
        | none => .ok (remembered type matched [str], n + 1)
      else .ok (matched, n) := by
  by_cases hh : hits command type str
  · rw [if_pos hh]
    -- The classes that remember the keyword, those of a prefix, and those that only count.
    cases type with
    | partlyMatch | rangeMatch =>
      refine (if_pos hh).trans ?_
      rw [remember_eq]
      by_cases ha : Agree (matched.toList ++ [str]) <;>
        simp [conflict, isPartial, remembers, remembered, ha]
    | ipv4PrefixMatch | ipv6PrefixMatch =>
      refine (if_pos (by simpa [hits] using hh)).trans ?_
      simp only [conflict, isPartial, decide_eq_true_eq]
      split_ifs <;> simp_all [remembers, remembered]
    | exactMatch | ipv6Match | ipv4Match | extendMatch => exact if_pos hh
    | noMatch | varargMatch => cases hh
  · rw [if_neg hh]
    cases type with
    | ipv4PrefixMatch | ipv6PrefixMatch => exact if_neg (by simpa [hits] using hh)
    | noMatch | varargMatch => rfl
    | _ => exact if_neg hh

/-- The check of an item, by the hits of its alternatives. -/
theorem ambiguousDescvec_eq (command : CString) (type : MatchType) (descvec : List Desc)
    (matched : Option CString) (n : ℕ) : ambiguousDescvec command type descvec matched n =
      match conflict command type matched (hitsAt command type descvec) with
      | some ret => .error ret
      | none => .ok (remembered type matched (hitsAt command type descvec),
          n + (hitsAt command type descvec).length) := by
  induction descvec generalizing matched n with
  | nil => simp [ambiguousDescvec, hitsAt, conflict_nil, remembered_nil]
  | cons desc descvec ih =>
    rw [ambiguousDescvec, ambiguousDesc_eq]
    by_cases hh : hits command type desc.cmd
    · have hcons : hitsAt command type (desc :: descvec) =
          [desc.cmd] ++ hitsAt command type descvec := List.filter_cons_of_pos hh
      rw [if_pos hh, hcons, conflict_append, remembered_append]
      cases conflict command type matched [desc.cmd] with
      | some ret => rfl
      | none =>
        dsimp only
        rw [ih, List.length_append, List.length_singleton, Nat.add_assoc]
    · have hcons : hitsAt command type (desc :: descvec) = hitsAt command type descvec :=
        List.filter_cons_of_neg hh
      rw [if_neg hh, hcons]
      exact ih matched n

/-- The hits of all the live elements, in order. -/
def liveHits (command : CString) (type : MatchType) (index : ℕ) (l : List (CmdElement F)) :
    List CString :=
  l.flatMap fun e => hitsAt command type (e.item index)

/-- The check of all elements, by the hits of those that are live. -/
theorem ambiguousVector_fst (command : CString) (index : ℕ) (type : MatchType)
    (v : CmdVector F) (matched : Option CString) :
    (ambiguousVector command index type v matched).1 =
      (conflict command type matched (liveHits command type index v.reduceOption)).getD 0 := by
  induction v generalizing matched with
  | nil => simp [ambiguousVector, liveHits, conflict_nil]
  | cons s v ih =>
    cases s with
    | none => rw [ambiguousVector, List.reduceOption_cons_of_none, ← ih]
    | some e =>
      rw [ambiguousVector, ambiguousDescvec_eq, List.reduceOption_cons_of_some, liveHits,
        List.flatMap_cons, ← liveHits, conflict_append]
      cases conflict command type matched (hitsAt command type (e.item index)) with
      | some ret => rfl
      | none => exact ih _

/-- Without a conflict, it leaves the elements that have a hit. -/
theorem reduceOption_ambiguousVector {command : CString} {index : ℕ} {type : MatchType}
    {v : CmdVector F} {matched : Option CString}
    (h : conflict command type matched (liveHits command type index v.reduceOption) = none) :
    (ambiguousVector command index type v matched).2.reduceOption =
      v.reduceOption.filter fun e => hitsAt command type (e.item index) ≠ [] := by
  induction v generalizing matched with
  | nil => rfl
  | cons s v ih =>
    cases s with
    | none =>
      rw [ambiguousVector, List.reduceOption_cons_of_none, List.reduceOption_cons_of_none]
      exact ih h
    | some e =>
      rw [List.reduceOption_cons_of_some, liveHits, List.flatMap_cons, ← liveHits,
        conflict_append] at h
      rw [ambiguousVector, ambiguousDescvec_eq, List.reduceOption_cons_of_some]
      cases hc : conflict command type matched (hitsAt command type (e.item index)) with
      | some ret => rw [hc] at h; cases h
      | none =>
        rw [hc] at h
        dsimp only
        rw [Nat.zero_add]
        -- An element without a hit is unset.
        by_cases hnil : hitsAt command type (e.item index) = []
        · rw [if_pos (List.length_eq_zero_iff.2 hnil),
            List.filter_cons_of_neg (by simpa using hnil), List.reduceOption_cons_of_none, ih h]
        · rw [if_neg (fun h0 => hnil (List.length_eq_zero_iff.1 h0)),
            List.filter_cons_of_pos (by simpa using hnil), List.reduceOption_cons_of_some, ih h]

end Mksh
