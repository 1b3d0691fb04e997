import Mksh.Command.Candidates
import Mksh.Vector.Sequence

/-!
# The array of matches

`cmdCompleteCommand`, with the vector in which it collects the matches, and the array that it
returns, the slots of the vector. For one match, the array is terminated by a slot that has not
been used; for more, by a `NULL` that is set after the last one, for which the vector may have to
grow; and the common prefix is returned in an array of its own.

* The vector holds the matches collected (`completeVector_holds`), and `cmdLcd` does not read past
  the `NULL` (`cmdLcd_eq`).
* So what is returned are the matches, terminated (`cmdCompleteCommand_shows`), unless there are
  more of them than an `int` counts.
-/

namespace Mksh

open CString CVector

variable {F : Type*} {table : List (CmdElement F)} {ws : List CString} {command : Option CString}

/-- What completion ends with. -/
inductive Completion
  /-- `NULL`, with a status. -/
  | null (status : ℤ)
  /-- An array, which is all that is allocated for it, with a status. -/
  | array (status : ℤ) (matchStr : List (Option CString))
  /-- Reading past the end of an array. -/
  | fault
  /-- Growing a vector, which does not end. -/
  | grows
  deriving DecidableEq

namespace Matchvec

/-- Check same string element existence: `true` if it is not there. -/
def cmdUniqueString (v : CVector CString) (str : CString) : Bool :=
  (List.range v.max).all fun i => (v.slot i).all fun m => strcmp m str ≠ 0

/-- The loop over the alternatives of an item; `none` if growing does not end. -/
def completeDescvec (command : Option CString) :
    List Desc → CVector CString → Option (CVector CString)
  | [], matchvec => some matchvec
  | desc :: descvec, matchvec =>
    match cmdEntryFunction command desc.cmd with
    | none => completeDescvec command descvec matchvec
    | some string =>
      if cmdUniqueString matchvec string then
        match vectorSet matchvec (some string) with
        | none => none
        | some (_, matchvec) => completeDescvec command descvec matchvec
      else completeDescvec command descvec matchvec

/-- The loop over the vector; `none` if growing does not end. -/
def completeVector (command : Option CString) (index : ℕ) :
    CmdVector F → CVector CString → Option (CVector CString)
  | [], matchvec => some matchvec
  | none :: v, matchvec => completeVector command index v matchvec
  | some cmdElement :: v, matchvec =>
    match cmdElement.strvec[index]? with
    | none => completeVector command index v matchvec
    | some descvec =>
      match completeDescvec command descvec matchvec with
      | none => none
      | some matchvec => completeVector command index v matchvec

/-- The loop of `cmdLcd`, after the string `s₁`; `none` if it reads past the end. -/
def cmdLcdLoop : CString → List (Option CString) → ℤ → Option ℤ
  | _, [], _ => none
  | _, none :: _, lcd => some lcd
  | s₁, some s₂ :: matched, lcd =>
    let j : ℤ := commonLength s₁ s₂
    cmdLcdLoop s₂ matched (if lcd < 0 then j else if lcd > j then j else lcd)

/-- Check LCD of matched command; `none` if it reads past the end. -/
def cmdLcd : List (Option CString) → Option ℤ
  | [] => none
  | none :: _ => some 0
  | [some _] => none
  | some _ :: none :: _ => some 0
  | some s₁ :: matched => cmdLcdLoop s₁ matched (-1)

/-- The slots that the vector of candidates starts with. -/
def initMatchvecSize : ℕ := 10

/-- The end of completion, for a vector with two matches or more. -/
def completeMatches (command : Option CString) (matchvec : CVector CString) : Completion :=
  -- Make it sure last element is NULL.
  match vectorSet matchvec none with
  | none => .grows
  | some (_, matchvec) =>
    match command with
    | none => .array cmdCompleteListMatch matchvec.index
    | some command =>
      match cmdLcd matchvec.index with
      | none => .fault
      | some lcd =>
        if lcd ≠ 0 ∧ (command.length : ℤ) < lcd then
          let lcdstr := ((matchvec.slot 0).getD []).take lcd.toNat
          -- Make new matchvec.
          match vectorSet (vectorInit initMatchvecSize) (some lcdstr) with
          | none => .grows
          | some (_, matchvec) => .array cmdCompleteMatch matchvec.index
        else .array cmdCompleteListMatch matchvec.index

/-- Command line completion support. -/
def cmdCompleteCommand (table : List (CmdElement F)) (ws : List CString)
    (command : Option CString) : Completion :=
  match cmdCompleteLoop ws 0 (vectorCopy table) with
  | .error ret => .null ret
  | .ok v =>
    match completeVector command ws.length v (vectorInit initMatchvecSize) with
    | none => .grows
    | some matchvec =>
      -- No matched command
      if matchvec.slot 0 = none then
        .null (if command = none then cmdErrNothingTodo else cmdErrNoMatch)
      -- Only one matched
      else if matchvec.slot 1 = none then .array cmdCompleteFullMatch matchvec.index
      else completeMatches command matchvec

variable {v : CVector CString} {m : List CString}

/-! ## Collecting -/

/-- The vector holds `l`, unless growing it does not end, `l` being longer than an `int` counts. -/
def HoldsOrGrows (l : List CString) : Option (CVector CString) → Prop
  | none => 2 ^ 31 ≤ l.length
  | some v => v.Holds l

/-- The search in the array is the one in the list that it holds. -/
theorem cmdUniqueString_eq (hv : v.Holds m) (str : CString) :
    cmdUniqueString v str = Mksh.cmdUniqueString m str := by
  rw [Bool.eq_iff_iff, cmdUniqueString, Mksh.cmdUniqueString, List.all_eq_true, List.all_eq_true,
    hv.max_eq]
  constructor
  · intro h s hs
    obtain ⟨i, hi, rfl⟩ := List.mem_iff_getElem.1 hs
    have hslot := h i (List.mem_range.2 hi)
    rwa [hv.slot_eq, List.getElem?_eq_getElem hi] at hslot
  · intro h i hi
    have hi := List.mem_range.1 hi
    rw [hv.slot_eq, List.getElem?_eq_getElem hi]
    exact h _ (List.getElem_mem hi)

/-- Candidates are only added at the end. -/
theorem completeDescvec_append (descvec : List Desc) (m : List CString) :
    m <+: Mksh.completeDescvec command descvec m := by
  induction descvec generalizing m with
  | nil => exact List.prefix_refl m
  | cons d descvec ih =>
    rw [Mksh.completeDescvec]
    rcases cmdEntryFunction command d.cmd with _ | s
    · exact ih m
    · dsimp only
      split_ifs
      · exact (List.prefix_append m [s]).trans (ih (m ++ [s]))
      · exact ih m

/-- The same over all elements. -/
theorem completeVector_append (index : ℕ) (cmdVector : CmdVector F) (m : List CString) :
    m <+: Mksh.completeVector command index cmdVector m := by
  induction cmdVector generalizing m with
  | nil => exact List.prefix_refl m
  | cons slot cmdVector ih =>
    rcases slot with _ | e
    · exact ih m
    · rw [Mksh.completeVector]
      rcases e.strvec[index]? with _ | descvec
      · exact ih m
      · exact (completeDescvec_append descvec m).trans (ih _)

/-- The array holds the candidates, unless there are too many to be held. -/
theorem completeDescvec_holds (descvec : List Desc) (hv : v.Holds m) :
    HoldsOrGrows (Mksh.completeDescvec command descvec m)
      (completeDescvec command descvec v) := by
  induction descvec generalizing v m with
  | nil => exact hv
  | cons d descvec ih =>
    rw [completeDescvec, Mksh.completeDescvec]
    rcases cmdEntryFunction command d.cmd with _ | s
    · exact ih hv
    · dsimp only
      rw [cmdUniqueString_eq hv]
      split_ifs with hu
      · rcases hset : vectorSet v (some s) with _ | ⟨i, v'⟩
        · -- There is no room for one more.
          have hlen : 2 ^ 31 ≤ m.length := by
            by_contra hlt
            obtain ⟨v', hv'⟩ := hv.exists_vectorSet (Nat.lt_of_not_le hlt) (some s)
            rw [hv'] at hset
            cases hset
          exact hlen.trans (((List.prefix_append m [s]).trans
            (completeDescvec_append descvec _)).length_le)
        · exact ih (hv.vectorSet_some hset)
      · exact ih hv

/-- The same over all elements. -/
theorem completeVector_holds (index : ℕ) (cmdVector : CmdVector F) (hv : v.Holds m) :
    HoldsOrGrows (Mksh.completeVector command index cmdVector m)
      (completeVector command index cmdVector v) := by
  induction cmdVector generalizing v m with
  | nil => exact hv
  | cons slot cmdVector ih =>
    rcases slot with _ | e
    · exact ih hv
    · rw [completeVector, Mksh.completeVector]
      rcases e.strvec[index]? with _ | descvec
      · exact ih hv
      · dsimp only
        have hdesc : HoldsOrGrows (Mksh.completeDescvec command descvec m)
            (completeDescvec command descvec v) := completeDescvec_holds descvec hv
        generalize completeDescvec command descvec v = r at hdesc ⊢
        rcases r with _ | v'
        · exact le_trans hdesc (completeVector_append index cmdVector _).length_le
        · exact ih hdesc

/-! ## The common prefix -/

/-- The loop over the array stops at its null. -/
theorem cmdLcdLoop_eq (s : CString) (m : List CString) (rest : List (Option CString)) (lcd : ℤ) :
    cmdLcdLoop s (m.map some ++ none :: rest) lcd = some (Mksh.cmdLcdLoop s m lcd) := by
  induction m generalizing s lcd with
  | nil => rfl
  | cons t m ih => exact ih t _

/-- The length of the common prefix, over the array. -/
theorem cmdLcd_eq {array : List (Option CString)} (h : NullTerminated array m) :
    cmdLcd array = some (Mksh.cmdLcd m) := by
  obtain ⟨rest, rfl⟩ := h
  rw [List.append_assoc, List.singleton_append]
  rcases m with _ | ⟨s, _ | ⟨t, m⟩⟩
  · rfl
  · rfl
  · exact cmdLcdLoop_eq s (t :: m) rest (-1)

/-! ## Returning -/

/-- The status, and `NULL` or an array of strings that is terminated. -/
inductive Shows : Completion → ℤ × Option (List CString) → Prop
  | null (status : ℤ) : Shows (.null status) (status, none)
  | array (status : ℤ) {matchStr : List (Option CString)} {l : List CString} :
      NullTerminated matchStr l → Shows (.array status matchStr) (status, some l)

/-- A vector with one match: the next slot is empty. -/
theorem shows_single {s : CString} (hv : v.Holds [s]) (status : ℤ) :
    Shows (.array status v.index) (status, some [s]) := by
  have hten := hv.alloced.le
  exact .array status (hv.nullTerminated (by rw [List.length_singleton]; omega))

/-- With two candidates or more, what is returned is what the list shows. -/
theorem completeMatches_shows {s t : CString} (hv : v.Holds (s :: t :: m))
    (hm : completeCandidates table ws command = .ok (s :: t :: m)) :
    Shows (completeMatches command v) (Mksh.cmdCompleteCommand table ws command) ∨
      completeMatches command v = .grows ∧ 2 ^ 31 ≤ (s :: t :: m).length := by
  rw [completeMatches, Mksh.cmdCompleteCommand, hm]
  rcases hset : vectorSet v none with _ | ⟨i, v'⟩
  · refine .inr ⟨rfl, ?_⟩
    by_contra hlt
    obtain ⟨v', hv'⟩ := hv.exists_vectorSet (Nat.lt_of_not_le hlt) none
    rw [hv'] at hset
    cases hset
  have hterm := hv.nullTerminated_vectorSet hset
  refine .inl ?_
  rcases command with _ | w
  · exact .array _ hterm
  dsimp only
  rw [cmdLcd_eq hterm]
  dsimp only
  split_ifs with hlong
  · -- The prefix is that of the first match, in a new vector.
    have hslot : v'.slot 0 = some s := by
      rw [(hv.vectorSet hset).2.2.2, Function.update_of_ne (by simp), hv.slot_eq]
      rfl
    obtain ⟨v'', hv''⟩ := holds_init.exists_vectorSet (by decide)
      (some (s.take (Mksh.cmdLcd (s :: t :: m)).toNat))
    rw [hslot, Option.getD_some, initMatchvecSize, hv'']
    exact shows_single (holds_init.vectorSet_some hv'') _
  · exact .array _ hterm

/-- What is returned, unless there are too many matches. -/
theorem cmdCompleteCommand_shows (table : List (CmdElement F)) (ws : List CString)
    (command : Option CString) :
    Shows (cmdCompleteCommand table ws command) (Mksh.cmdCompleteCommand table ws command) ∨
      cmdCompleteCommand table ws command = .grows ∧
        ∃ m, completeCandidates table ws command = .ok m ∧ 2 ^ 31 ≤ m.length := by
  rw [cmdCompleteCommand]
  rcases hl : cmdCompleteLoop ws 0 (vectorCopy table) with ret | cmdVector
  · refine .inl ?_
    rw [Mksh.cmdCompleteCommand, completeCandidates, hl]
    exact .null ret
  have hm : completeCandidates table ws command =
      .ok (Mksh.completeVector command ws.length cmdVector []) := by rw [completeCandidates, hl]
  have hv : HoldsOrGrows (Mksh.completeVector command ws.length cmdVector [])
      (completeVector command ws.length cmdVector (vectorInit initMatchvecSize)) :=
    completeVector_holds ws.length cmdVector holds_init
  dsimp only
  generalize completeVector command ws.length cmdVector (vectorInit initMatchvecSize) = r at hv ⊢
  generalize Mksh.completeVector command ws.length cmdVector [] = m at hm hv
  rcases r with _ | v
  · exact .inr ⟨rfl, m, hm, hv⟩
  dsimp only
  have hv : v.Holds m := hv
  rw [hv.slot_eq, hv.slot_eq]
  -- No candidate, one, or several: only then is the array read beyond its first two slots.
  rcases m with _ | ⟨s, _ | ⟨t, m⟩⟩
  · refine .inl ?_
    rw [Mksh.cmdCompleteCommand, hm]
    exact .null _
  · refine .inl ?_
    rw [Mksh.cmdCompleteCommand, hm]
    exact shows_single hv _
  · rcases completeMatches_shows hv hm with hshows | ⟨hgrows, hlen⟩
    · exact .inl hshows
    · exact .inr ⟨hgrows, _, hm, hlen⟩

end Matchvec

/-- The array that `Tab` returns: what there is to show of the candidates, terminated within what
    is allocated for it. -/
theorem cmdCompleteCommand_candidates {v : CmdVector F}
    (hv : cmdCompleteLoop ws 0 (vectorCopy table) = .ok v) :
    ∃ r, IsCompletion command (candidates command ws.length v.reduceOption) r ∧
      (Matchvec.Shows (Matchvec.cmdCompleteCommand table ws command) r ∨
        Matchvec.cmdCompleteCommand table ws command = .grows ∧
          2 ^ 31 ≤ (candidates command ws.length v.reduceOption).length) := by
  refine ⟨cmdCompleteCommand table ws command, isCompletion_cmdCompleteCommand hv, ?_⟩
  rcases Matchvec.cmdCompleteCommand_shows table ws command with hshows | ⟨hgrows, m, hm, hlen⟩
  · exact .inl hshows
  · refine .inr ⟨hgrows, ?_⟩
    rw [completeCandidates, hv] at hm
    rwa [← completeVector_nil_eq, Except.ok.inj hm]

/-- The completion of `make i`, over the array. -/
theorem cmdCompleteCommand_candidates_make :
    ∃ v, cmdCompleteLoop (words ["make"]) 0 (vectorCopy projectNode) = .ok v ∧
      ∃ r, IsCompletion (some "i".toList) (candidates (some "i".toList) 1 v.reduceOption) r ∧
        (Matchvec.Shows
            (Matchvec.cmdCompleteCommand projectNode (words ["make"]) (some "i".toList)) r ∨
          Matchvec.cmdCompleteCommand projectNode (words ["make"]) (some "i".toList) = .grows ∧
            2 ^ 31 ≤ (candidates (some "i".toList) 1 v.reduceOption).length) := by
  have hok : (cmdCompleteLoop (words ["make"]) 0 (vectorCopy projectNode)).isOk := by
    decide +kernel
  rcases hv : cmdCompleteLoop (words ["make"]) 0 (vectorCopy projectNode) with ret | v
  · rw [hv] at hok
    cases hok
  · exact ⟨v, rfl, cmdCompleteCommand_candidates hv⟩

end Mksh
