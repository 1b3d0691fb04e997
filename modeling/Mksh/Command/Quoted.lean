import Mathlib.Data.List.TakeWhile
import Mksh.Command.Strvec

/-!
# Quoted text

The words of a line are what stands between its white space (`lineWords`), and the
loop of `cmdMakeStrvec` finds them (`strvecLoop_eq`). Text between double quotes
is one word, with dashes for its white space, exactly if all of its white space
are spaces and the line is not taken for a comment (`cmdMakeStrvec_quoted_iff`).
-/

namespace Mksh

open CString

variable {s t w : CString} {c : Char}

/-! ## Words -/

/-- What stands between white space. -/
def lineWords (s : CString) : List CString := (s.splitOnP isspace).filter (· ≠ [])

/-- White space separates words. -/
theorem lineWords_append_cons (hc : isspace c) (s t : CString) :
    lineWords (s ++ c :: t) = lineWords s ++ lineWords t := by
  rw [lineWords, List.splitOnP_append_cons _ _ hc, List.filter_append]
  rfl

theorem lineWords_cons (hc : isspace c) (s : CString) : lineWords (c :: s) = lineWords s :=
  lineWords_append_cons hc [] s

/-- Without white space there is at most one word. -/
theorem lineWords_of_not_isspace (hs : ∀ c ∈ s, ¬ isspace c) :
    lineWords s = if s = [] then [] else [s] := by
  rw [lineWords, List.splitOnP_eq_singleton fun c hc => Bool.eq_false_iff.2 (hs c hc)]
  split_ifs with hnil
  · rw [hnil]
    rfl
  · exact List.filter_cons_of_pos (by simpa using hnil)

/-- Leading white space makes no words. -/
theorem lineWords_dropWhile (s : CString) : lineWords (s.dropWhile isspace) = lineWords s := by
  induction s with
  | nil => rfl
  | cons c s ih =>
    by_cases hc : isspace c
    · rw [List.dropWhile_cons_of_pos hc, ih, lineWords_cons hc]
    · rw [List.dropWhile_cons_of_neg hc]

/-- The pieces have all the characters that do not split. -/
theorem flatten_splitOnP (p : Char → Bool) (s : CString) :
    (s.splitOnP p).flatten = s.filter (!p ·) := by
  induction s with
  | nil => rfl
  | cons c s ih =>
    rw [List.splitOnP_cons_eq_if_modifyHead]
    split_ifs with hc
    · rw [List.flatten_cons, ih, List.filter_cons_of_neg (by simpa using hc), List.nil_append]
    · obtain ⟨piece, pieces, hpieces⟩ := List.exists_cons_of_ne_nil (List.splitOnP_ne_nil p s)
      rw [List.filter_cons_of_pos (by simpa using hc), ← ih, hpieces]
      rfl

/-- The words have all the characters that are no white space. -/
theorem flatten_lineWords (s : CString) : (lineWords s).flatten = s.filter (!isspace ·) := by
  rw [lineWords, List.flatten_filter_ne_nil, flatten_splitOnP]

/-- A word is not empty, and has no white space. -/
theorem word_of_mem_lineWords (hw : w ∈ lineWords s) : w ≠ [] ∧ ∀ c ∈ w, ¬isspace c := by
  refine ⟨by simpa using (List.mem_filter.1 hw).2, fun c hc => ?_⟩
  have hmem : c ∈ s.filter (!isspace ·) := by
    rw [← flatten_lineWords]
    exact List.mem_flatten_of_mem hw hc
  simpa using (List.mem_filter.1 hmem).2

theorem length_le_of_mem_lineWords (hw : w ∈ lineWords s) : w.length ≤ s.length := by
  have hsub : List.Sublist w (s.filter (!isspace ·)) := by
    rw [← flatten_lineWords]
    exact List.sublist_flatten_of_mem hw
  exact (hsub.trans List.filter_sublist).length_le

/-- The loop stores the words: in a word that has begun, this one and those that follow, and in
    the white space after a word, those that follow. -/
theorem strvecLoop_and_strvecSkip_eq (cp : CString) :
    (∀ token : CString, token ≠ [] → (∀ c ∈ token, ¬isspace c) →
      strvecLoop token cp = lineWords (token ++ cp)) ∧ strvecSkip cp = lineWords cp := by
  induction cp with
  | nil =>
    refine ⟨fun token hne htoken => ?_, rfl⟩
    rw [strvecLoop, List.append_nil, lineWords_of_not_isspace htoken, if_neg hne]
  | cons c cp ih =>
    obtain ⟨hloop, hskip⟩ := ih
    rw [strvecSkip, separates_eq]
    by_cases hc : isspace c
    · refine ⟨fun token hne htoken => ?_, ?_⟩
      · rw [strvecLoop, separates_eq, if_pos hc, hskip, lineWords_append_cons hc,
          lineWords_of_not_isspace htoken, if_neg hne, List.singleton_append]
      · rw [if_pos hc, hskip, lineWords_cons hc]
    · refine ⟨fun token hne htoken => ?_, ?_⟩
      · have hword : ∀ b ∈ token ++ [c], ¬isspace b :=
          List.forall_mem_append.2 ⟨htoken, List.forall_mem_singleton.2 hc⟩
        rw [strvecLoop, separates_eq, if_neg hc, hloop _ (by simp) hword, List.append_assoc,
          List.singleton_append]
      · rw [if_neg hc, hloop _ (List.cons_ne_nil c []) (List.forall_mem_singleton.2 hc),
          List.singleton_append]

/-- What is stored are the words, since the first one starts at `cp`. -/
theorem strvecLoop_eq (hc : ¬isspace c) (cp : CString) :
    strvecLoop [] (c :: cp) = lineWords (c :: cp) := by
  rw [strvecLoop, separates_eq, if_neg hc, List.nil_append,
    (strvecLoop_and_strvecSkip_eq cp).1 [c] (List.cons_ne_nil c [])
      (List.forall_mem_singleton.2 hc), List.singleton_append]

/-- The word that has begun is stored first. -/
theorem exists_strvecLoop_eq_cons (token cp : CString) :
    ∃ w ws, strvecLoop token cp = (token ++ w) :: ws := by
  induction cp generalizing token with
  | nil => exact ⟨[], [], by rw [strvecLoop, List.append_nil]⟩
  | cons c cp ih =>
    rw [strvecLoop]
    split_ifs
    · exact ⟨[], strvecSkip cp, by rw [List.append_nil]⟩
    · obtain ⟨w, ws, hw⟩ := ih (token ++ [c])
      exact ⟨c :: w, ws, by rw [hw, List.append_assoc, List.singleton_append]⟩

/-- The first word starts where the white space ends. -/
theorem exists_lineWords_eq_cons (hc : ¬isspace c) (cp : CString) :
    ∃ w ws, lineWords (c :: cp) = (c :: w) :: ws := by
  obtain ⟨w, ws, hw⟩ := exists_strvecLoop_eq_cons [c] cp
  refine ⟨w, ws, ?_⟩
  rw [← strvecLoop_eq hc, strvecLoop, separates_eq, if_neg hc, List.nil_append, hw]
  rfl

/-- The words of a line, unless it is blank or a comment. -/
theorem cmdMakeStrvec_eq (string : CString) : cmdMakeStrvec string =
    ((blankQuotes string).dropWhile isspace).head?.bind fun c =>
      if c = '!' ∨ c = '#' then none else some (lineWords (blankQuotes string)) := by
  rw [cmdMakeStrvec]
  rcases hcp : (blankQuotes string).dropWhile isspace with _ | ⟨c, cp⟩
  · rfl
  · have hstop := List.head?_dropWhile_not isspace (blankQuotes string)
    rw [hcp] at hstop
    have hc : ¬isspace c := by simpa using hstop
    have hloop : strvecLoop [] (c :: cp) = lineWords (blankQuotes string) := by
      rw [strvecLoop_eq hc, ← hcp, lineWords_dropWhile]
    dsimp only
    rw [hloop]
    rfl

/-- A vector has words, which are not empty and have no white space. -/
theorem cmdMakeStrvec_words {string : CString} {vline : List CString}
    (h : cmdMakeStrvec string = some vline) :
    vline ≠ [] ∧ ∀ w ∈ vline, w ≠ [] ∧ ∀ c ∈ w, ¬isspace c := by
  rw [cmdMakeStrvec_eq] at h
  obtain ⟨c, hc, h⟩ := Option.bind_eq_some_iff.1 h
  split_ifs at h
  obtain rfl := Option.some.inj h
  refine ⟨?_, fun _ => word_of_mem_lineWords⟩
  have hstop := List.head?_dropWhile_not isspace (blankQuotes string)
  obtain ⟨cp, hcp⟩ := List.head?_eq_some_iff.1 hc
  rw [hcp] at hstop
  obtain ⟨w, ws, hwords⟩ := exists_lineWords_eq_cons (c := c) (by simpa using hstop) cp
  rw [← lineWords_dropWhile, hcp, hwords]
  exact List.cons_ne_nil _ _

/-- A string with white space is not a word. -/
theorem lineWords_ne_singleton (hc : isspace c) (hmem : c ∈ s) (hlen : w.length = s.length) :
    lineWords s ≠ [w] := by
  intro heq
  obtain ⟨a, b, rfl⟩ := List.append_of_mem hmem
  have hw : w ∈ lineWords a ++ lineWords b := by
    rw [← lineWords_append_cons hc, heq]
    exact List.mem_singleton_self w
  have hle : w.length ≤ a.length ∨ w.length ≤ b.length :=
    (List.mem_append.1 hw).imp length_le_of_mem_lineWords length_le_of_mem_lineWords
  rw [hlen, List.length_append, List.length_cons] at hle
  omega

/-! ## Quotes -/

/-- The first quote is where the text before it ends. -/
theorem strchr_append_cons (h : c ∉ s) (t : CString) : strchr (s ++ c :: t) c = some s.length := by
  induction s with
  | nil => simp [strchr, List.findIdx?_cons]
  | cons b s ih =>
    have hb : b ≠ c := fun hb => h (by simp [hb])
    have ih := ih fun hmem => h (List.mem_cons_of_mem _ hmem)
    rw [strchr] at ih ⊢
    simp [List.findIdx?_cons, hb, ih]

/-- Between two quotes, spaces become dashes, and the quotes become spaces. -/
theorem blankQuotes_quoted {pre mid : CString} (hpre : '"' ∉ pre) (hmid : '"' ∉ mid)
    (post : CString) : blankQuotes (pre ++ '"' :: (mid ++ '"' :: post)) =
      pre ++ ' ' :: (mid.map (fun c => if c = ' ' then '-' else c) ++ ' ' :: post) := by
  have hdrop : (pre ++ '"' :: (mid ++ '"' :: post)).drop (pre.length + 1) = mid ++ '"' :: post := by
    simp
  have hdrop' : (pre ++ '"' :: (mid ++ '"' :: post)).drop (pre.length + 1 + mid.length + 1) =
      post := by
    rw [Nat.add_assoc, ← List.drop_drop, hdrop]
    simp
  rw [blankQuotes, strchr_append_cons hpre]
  dsimp only
  rw [hdrop, strchr_append_cons hmid]
  dsimp only
  rw [hdrop', List.take_left, List.take_left]
  simp

/-- Turning the spaces into dashes makes a word of a text whose white space are
    spaces, and of no other one. -/
theorem lineWords_dashes_iff {mid : CString} (hne : mid ≠ []) :
    lineWords (mid.map fun c => if c = ' ' then '-' else c) =
        [mid.map fun c => if isspace c then '-' else c] ↔
      ∀ c ∈ mid, isspace c → c = ' ' := by
  refine ⟨fun heq => ?_, fun hspace => ?_⟩
  · by_contra hspace
    push Not at hspace
    obtain ⟨c, hc, hs, hne⟩ := hspace
    have hmem : c ∈ mid.map fun c => if c = ' ' then '-' else c :=
      List.mem_map.2 ⟨c, hc, if_neg hne⟩
    exact lineWords_ne_singleton hs hmem (by rw [List.length_map, List.length_map]) heq
  · have hmap : (mid.map fun c => if c = ' ' then '-' else c) =
        mid.map fun c => if isspace c then '-' else c := by
      refine List.map_congr_left fun c hc => if_congr ⟨?_, hspace c hc⟩ rfl rfl
      rintro rfl
      decide
    rw [hmap, lineWords_of_not_isspace, if_neg (by simpa using hne)]
    intro c hc
    obtain ⟨b, -, rfl⟩ := List.mem_map.1 hc
    split_ifs with hb
    · decide
    · exact hb

/-- The first character that is not white space is in `pre`, or else in `mid`. -/
theorem head?_dropWhile_quoted {pre mid : CString} (post : CString) (hne : mid ≠ [])
    (hspace : ∀ c ∈ mid, isspace c → c = ' ') :
    ((pre ++ ' ' :: (mid.map (fun c => if c = ' ' then '-' else c) ++ ' ' :: post)).dropWhile
        isspace).head? =
      (pre.dropWhile isspace).head?.or
        (mid.head?.map fun c => if c = ' ' then '-' else c) := by
  induction pre with
  | nil =>
    obtain ⟨c, cs, rfl⟩ := List.exists_cons_of_ne_nil hne
    have hc : ¬ isspace (if c = ' ' then '-' else c) := by
      split_ifs with hc
      · decide
      · exact fun hs => hc (hspace c List.mem_cons_self hs)
    rw [List.nil_append, List.dropWhile_cons_of_pos (by decide), List.map_cons, List.cons_append,
      List.dropWhile_cons_of_neg hc]
    rfl
  | cons c pre ih =>
    by_cases hc : isspace c
    · rw [List.cons_append, List.dropWhile_cons_of_pos hc, ih, List.dropWhile_cons_of_pos hc]
    · rw [List.cons_append, List.dropWhile_cons_of_neg hc, List.dropWhile_cons_of_neg hc]
      rfl

/-- Text between double quotes is one word, with dashes for its white space, exactly
    if all of its white space are spaces and it does not make the line a comment. -/
theorem cmdMakeStrvec_quoted_iff {pre mid : CString} (post : CString) (hpre : '"' ∉ pre)
    (hmid : '"' ∉ mid) (hword : ∃ c ∈ mid, ¬ isspace c)
    (hcomment : ∀ c ∈ (pre.dropWhile isspace).head?, c ≠ '!' ∧ c ≠ '#') :
    cmdMakeStrvec (pre ++ '"' :: (mid ++ '"' :: post)) =
        some (lineWords pre ++ mid.map (fun c => if isspace c then '-' else c) :: lineWords post) ↔
      (∀ c ∈ mid, isspace c → c = ' ') ∧
        ((∀ c ∈ pre, isspace c) → ∀ c ∈ mid.head?, c ≠ '!' ∧ c ≠ '#') := by
  obtain ⟨b, hb, -⟩ := hword
  have hne : mid ≠ [] := List.ne_nil_of_mem hb
  have hwords (mid' : CString) : lineWords (pre ++ ' ' :: (mid' ++ ' ' :: post)) =
      lineWords pre ++ (lineWords mid' ++ lineWords post) := by
    rw [lineWords_append_cons (by decide), lineWords_append_cons (by decide)]
  rw [cmdMakeStrvec_eq, blankQuotes_quoted hpre hmid, hwords, Option.bind_eq_some_iff,
    ← lineWords_dashes_iff hne]
  have hcancel (words' : List CString) : lineWords pre ++ (words' ++ lineWords post) =
      lineWords pre ++ mid.map (fun c => if isspace c then '-' else c) :: lineWords post ↔
        words' = [mid.map fun c => if isspace c then '-' else c] := by
    rw [← List.singleton_append, List.append_cancel_left_eq, List.append_cancel_right_eq]
  constructor
  · rintro ⟨a, ha, hif⟩
    split_ifs at hif with hnote
    have hword := (hcancel _).1 (Option.some.inj hif)
    refine ⟨hword, fun hblank c hc => ?_⟩
    rw [head?_dropWhile_quoted post hne ((lineWords_dashes_iff hne).1 hword),
      List.dropWhile_eq_nil_iff.2 hblank, Option.mem_def.1 hc] at ha
    obtain rfl := Option.some.inj ha
    refine ⟨?_, ?_⟩
    · rintro rfl
      exact hnote (.inl (by decide))
    · rintro rfl
      exact hnote (.inr (by decide))
  · rintro ⟨hword, hstart⟩
    rw [head?_dropWhile_quoted post hne ((lineWords_dashes_iff hne).1 hword)]
    rcases hhead : (pre.dropWhile isspace).head? with _ | a
    · -- The first word of the line is the quoted one.
      obtain ⟨c, cs, rfl⟩ := List.exists_cons_of_ne_nil hne
      have hblank := List.dropWhile_eq_nil_iff.1 (List.head?_eq_none_iff.1 hhead)
      obtain ⟨hbang, hhash⟩ := hstart hblank c rfl
      refine ⟨if c = ' ' then '-' else c, rfl, ?_⟩
      rw [if_neg, (hcancel _).2 hword]
      split_ifs with hc
      · decide
      · exact not_or.2 ⟨hbang, hhash⟩
    · refine ⟨a, rfl, ?_⟩
      rw [if_neg (not_or.2 (hcomment a hhead)), (hcancel _).2 hword]

/-- The quoted words are one, with a dash between them. -/
theorem cmdMakeStrvec_quoted_echo :
    cmdMakeStrvec "say \"a b\" c".toList = some ["say".toList, "a-b".toList, "c".toList] :=
  (cmdMakeStrvec_quoted_iff " c".toList (show '"' ∉ "say ".toList by decide)
    (show '"' ∉ "a b".toList by decide) ⟨'a', by decide⟩ (by simp [isspace])).2 (by simp [isspace])

/-- A tab between the quotes breaks the word, and an exclamation mark that comes
    first makes a comment of the line. -/
theorem cmdMakeStrvec_quoted_tab :
    cmdMakeStrvec "say \"a\tb\"".toList ≠
        some (lineWords "say ".toList ++ "a-b".toList :: lineWords "".toList) ∧
      cmdMakeStrvec "say \"a\tb\"".toList = some ["say".toList, "a".toList, "b".toList] ∧
      cmdMakeStrvec "\"!a\"".toList = none := by
  decide

end Mksh
