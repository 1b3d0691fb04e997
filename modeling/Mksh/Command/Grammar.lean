import Mksh.Command.Layout

/-!
# The grammar of declarations

A layout is parsed to its items and the lines of its descriptions exactly if no
group right after another one starts with white space (`cmdMakeDescvec_layout_iff`).
A declaration that is no layout is a parse error only if one of its bars stands
outside of a group (`cmdMakeDescvec_error_iff`): the parser does right by a
declaration exactly if it is a tight layout or has such a bar (`specRight_iff`).
-/

namespace Mksh

open CString

variable {string : CString} {doc : Option CString}

/-! ## Layouts -/

/-- A layout is parsed to its items, with the lines of its descriptions, exactly if
    it is tight. -/
theorem cmdMakeDescvec_layout_iff (l : Layout) {doc : CString} (h : '\r' ∉ doc) :
    cmdMakeDescvec l.text (some doc) = .ok (describe l.items (docLines doc)) ↔ l.Tight := by
  rw [cmdMakeDescvec_text, Except.ok.injEq, assign_docLines _ h, Layout.Tight,
    ← Layout.parsed_eq_iff]
  refine ⟨fun heq => ?_, fun heq => congrArg (describe · (docLines doc)) heq⟩
  have hcmd := congrArg (List.map (List.map Desc.cmd)) heq
  rw [← assign_docLines _ h, ← assign_docLines _ h, assign_cmd, assign_cmd] at hcmd
  exact hcmd

/-- No blanks. -/
def Blank.empty : Blank := ⟨[], List.forall_mem_nil _⟩

/-- One space. -/
def Blank.space : Blank := ⟨[' '], List.forall_mem_singleton.2 rfl⟩

/-- A word of one character. -/
def SpecWord.single (c : Char) (hplain : ¬ endsWord c) (hopen : c ≠ '(') : SpecWord where
  text := [c]
  ne_nil := List.cons_ne_nil c []
  plain := List.forall_mem_singleton.2 hplain
  head h := hopen (Option.some.inj h)

/-- `(a|b) c`. -/
def sampleLayout : Layout where
  pieces := [(.empty, .group ⟨.empty, .single 'a' (by decide) (by decide), .empty⟩
      [⟨.empty, .single 'b' (by decide) (by decide), .empty⟩]),
    (.space, .word (.single 'c' (by decide) (by decide)))]
  trailing := .empty
  separated := ⟨nofun, nofun, trivial⟩

/-- A group with two help lines, and a word left without one. -/
theorem cmdMakeDescvec_layout_sample : cmdMakeDescvec "(a|b) c".toList (some "A\n B\n".toList) =
    .ok [[⟨['a'], some ['A']⟩, ⟨['b'], some ['B']⟩], [⟨['c'], none⟩]] :=
  (cmdMakeDescvec_layout_iff sampleLayout (show '\r' ∉ "A\n B\n".toList by decide)).2
    ⟨nofun, trivial⟩

/-- A layout that is not tight: two groups, the second one with white space after
    its parenthesis. -/
def looseLayout : Layout where
  pieces := [(.empty, .group ⟨.empty, .single 'a' (by decide) (by decide), .empty⟩
      [⟨.empty, .single 'b' (by decide) (by decide), .empty⟩]),
    (.space, .group ⟨.space, .single 'c' (by decide) (by decide), .empty⟩
      [⟨.empty, .single 'd' (by decide) (by decide), .empty⟩])]
  trailing := .empty
  separated := ⟨nofun, nofun, trivial⟩

/-- An empty word is found in `(a|b) ( c|d)`. -/
theorem cmdMakeDescvec_loose : looseLayout.text = "(a|b) ( c|d)".toList ∧
    cmdMakeDescvec looseLayout.text (some []) ≠
      .ok (describe looseLayout.items (docLines [])) ∧
    cmdMakeDescvec looseLayout.text (some []) =
      .ok [[⟨['a'], none⟩, ⟨['b'], none⟩], [⟨[], none⟩, ⟨['c'], none⟩, ⟨['d'], none⟩]] := by
  decide

/-! ## Parse errors -/

/-- A bar stands outside of a group: a parenthesis at the start of a word opens a
    group, and any closing one closes it. -/
def barOutside : Bool → Bool → CString → Bool
  | _, _, [] => false
  | inGroup, inWord, c :: cs =>
    if c = '|' then !inGroup || barOutside inGroup false cs
    else if c = ')' then barOutside false false cs
    else if isspace c then barOutside inGroup false cs
    else if c = '(' ∧ !inWord then barOutside true false cs
    else barOutside inGroup true cs

variable {inGroup inWord : Bool} {cp : CString}

/-- Leading blanks do not change the scan. -/
theorem barOutside_dropWhile (inGroup : Bool) (cp : CString) :
    barOutside inGroup false (cp.dropWhile isspace) = barOutside inGroup false cp := by
  induction cp with
  | nil => rfl
  | cons c cp ih =>
    by_cases hc : isspace c
    · have hbar : c ≠ '|' := by
        rintro rfl
        exact absurd hc (by decide)
      have hclose : c ≠ ')' := by
        rintro rfl
        exact absurd hc (by decide)
      rw [List.dropWhile_cons_of_pos hc, ih, barOutside, if_neg hbar, if_neg hclose, if_pos hc]
    · rw [List.dropWhile_cons_of_neg hc]

/-- Where a word ends, it does not matter whether there was one. -/
theorem barOutside_of_ends (h : ∀ c ∈ cp.head?, endsWord c) :
    barOutside inGroup inWord cp = barOutside inGroup false cp := by
  rcases cp with _ | ⟨c, cp⟩
  · rfl
  · have hc : c ≠ '(' := by
      rintro rfl
      exact absurd (h '(' rfl) (by decide)
    by_cases hbar : c = '|'
    · rw [barOutside, if_pos hbar, barOutside, if_pos hbar]
    by_cases hclose : c = ')'
    · rw [barOutside, if_neg hbar, if_pos hclose, barOutside, if_neg hbar, if_pos hclose]
    have hspace : isspace c := by
      have hends := h c rfl
      simp only [endsWord, hbar, hclose, Bool.or_eq_true, decide_eq_true_eq, decide_false,
        Bool.or_false] at hends
      rcases hends with (hs | rfl) | rfl
      · exact hs
      · decide
      · decide
    rw [barOutside, if_neg hbar, if_neg hclose, if_pos hspace, barOutside, if_neg hbar,
      if_neg hclose, if_pos hspace]

/-- Over a word, nothing changes, unless it opens a group. -/
theorem barOutside_word {word : CString} (hword : ∀ c ∈ word, ¬ endsWord c)
    (hopen : word.head? = some '(' → inGroup ∨ inWord) (hcp : ∀ c ∈ cp.head?, endsWord c) :
    barOutside inGroup inWord (word ++ cp) = barOutside inGroup false cp := by
  induction word generalizing inWord with
  | nil => exact barOutside_of_ends hcp
  | cons c word ih =>
    have hends := hword c List.mem_cons_self
    have hspace : ¬ isspace c := fun hs => hends (endsWord_of_isspace hs)
    have hbar : c ≠ '|' := by
      rintro rfl
      exact hends (by decide)
    have hclose : c ≠ ')' := by
      rintro rfl
      exact hends (by decide)
    have hrest : ∀ c ∈ word, ¬ endsWord c := fun b hb => hword b (List.mem_cons_of_mem _ hb)
    rw [List.cons_append, barOutside, if_neg hbar, if_neg hclose, if_neg hspace]
    split_ifs with hc
    · obtain ⟨rfl, hw⟩ := hc
      have hin : inGroup = true := (hopen rfl).resolve_right (by simpa using hw)
      subst hin
      exact ih hrest fun _ => .inl rfl
    · exact ih hrest fun _ => .inr rfl

/-- The state of the parser as that of the scan. -/
def skipped (p : ℕ × CString) : Bool := barOutside (decide (p.1 ≠ 0)) false p.2

/-- Opening a group is what the scan does too. -/
theorem skipped_skipOpen (p : ℕ × CString) : skipped (skipOpen p) = skipped p := by
  rw [skipOpen.eq_def]
  split
  · rfl
  · rfl

/-- So is closing one. -/
theorem skipped_skipClose (p : ℕ × CString) : skipped (skipClose p) = skipped p := by
  rw [skipClose.eq_def]
  split
  · rfl
  · rfl

/-- At a bar outside of a group, parsing stops. -/
theorem skipBar_skipped (p : ℕ × CString) :
    (skipBar p = .error .parse ∧ skipped p) ∨
      ∃ q, skipBar p = .ok q ∧ q.1 = p.1 ∧ skipped q = skipped p := by
  rw [skipBar.eq_def]
  split
  next multiple cp =>
    have hstep : skipped (multiple, '|' :: cp) =
        (!decide (multiple ≠ 0) || skipped (multiple, cp)) := rfl
    split_ifs with hm
    · exact .inl ⟨rfl, by rw [hstep, hm]; rfl⟩
    · exact .inr ⟨_, rfl, rfl, by rw [hstep, decide_eq_true hm]; rfl⟩
  · exact .inr ⟨p, rfl, rfl, rfl⟩

/-- Skipping the punctuation stops at a bar outside of a group, or follows the scan. -/
theorem skipPunctuation_skipped (multiple : ℕ) (cp : CString) :
    (skipPunctuation multiple cp = .error .parse ∧ skipped (multiple, cp)) ∨
      ∃ q, skipPunctuation multiple cp = .ok q ∧ skipped q = skipped (multiple, cp) ∧
        (q.2.head? = some '(' → q.1 = 1) := by
  have hstart : skipped (skipClose (skipOpen (multiple, cp.dropWhile isspace))) =
      skipped (multiple, cp) := by
    rw [skipped_skipClose, skipped_skipOpen]
    exact barOutside_dropWhile _ cp
  rw [skipPunctuation]
  rcases skipBar_skipped (skipClose (skipOpen (multiple, cp.dropWhile isspace))) with
    ⟨hbar, hout⟩ | ⟨⟨m, cp'⟩, hbar, -, hout⟩
  · rw [hbar]
    exact .inl ⟨rfl, hstart ▸ hout⟩
  · rw [hbar]
    refine .inr ⟨_, rfl, ?_, ?_⟩
    · rw [skipped_skipOpen, ← hstart, ← hout]
      exact barOutside_dropWhile _ cp'
    · rw [skipOpen.eq_def]
      split
      · exact fun _ => rfl
      · next hne =>
        -- A bracket that is next has been skipped.
        intro hhead
        obtain ⟨cs, hcs⟩ : ∃ cs, cp'.dropWhile isspace = '(' :: cs :=
          List.head?_eq_some_iff.1 hhead
        exact absurd (congrArg (Prod.mk m) hcs) (hne m cs)

/-- Over a word, the state of the scan stays. -/
theorem skipped_word {multiple : ℕ} (h : cp.head? = some '(' → multiple ≠ 0) :
    skipped (multiple, cp.dropWhile fun c => !endsWord c) = skipped (multiple, cp) := by
  have hsplit : (cp.takeWhile fun c => !endsWord c) ++ (cp.dropWhile fun c => !endsWord c) = cp :=
    List.takeWhile_append_dropWhile
  have hskip : barOutside (decide (multiple ≠ 0)) false ((cp.takeWhile fun c => !endsWord c) ++
      (cp.dropWhile fun c => !endsWord c)) =
        barOutside (decide (multiple ≠ 0)) false (cp.dropWhile fun c => !endsWord c) := by
    refine barOutside_word (fun c hc => ?_) (fun hhead => .inl ?_) (fun c hc => ?_)
    · have hall := List.all_eq_true.1 List.all_takeWhile c hc
      simpa using hall
    · refine decide_eq_true (h ?_)
      rcases cp with _ | ⟨c, cp⟩
      · cases hhead
      · rw [List.takeWhile_cons] at hhead
        split_ifs at hhead
        · exact hhead
        · cases hhead
    · have hstop := List.head?_dropWhile_not (fun c => !endsWord c) cp
      rw [Option.mem_def.1 hc] at hstop
      simpa using hstop
  rw [skipped, skipped, ← hskip, hsplit]

/-- Parsing from some place on is an error exactly if a bar stands outside of a
    group from there on. -/
theorem cmdMakeDescvecLoop_error_iff {fuel multiple : ℕ} {cp : CString} (h : cp.length < fuel)
    (dp : Option CString) (allvec : List (List Desc)) :
    cmdMakeDescvecLoop fuel multiple cp dp allvec = .error .parse ↔ skipped (multiple, cp) := by
  induction fuel generalizing multiple cp dp allvec with
  | zero => exact absurd h (Nat.not_lt_zero _)
  | succ fuel ih =>
    rw [cmdMakeDescvecLoop]
    rcases skipPunctuation_skipped multiple cp with ⟨hskip, hout⟩ | ⟨⟨m, cp'⟩, hskip, hout, hopen⟩
    · rw [hskip]
      exact iff_of_true rfl hout
    have hlt (hnil : cp' ≠ []) : (cp'.dropWhile fun c => !endsWord c).length < fuel :=
      lt_of_lt_of_le (length_dropWhile_lt hskip hnil) (Nat.le_of_lt_succ h)
    have hword : skipped (m, cp'.dropWhile fun c => !endsWord c) = skipped (m, cp') :=
      skipped_word fun hhead => (hopen hhead).trans_ne Nat.one_ne_zero
    rw [hskip, ← hout, ← hword]
    dsimp only
    -- Each word leaves the scan as it is, and the loop goes on with less fuel.
    split_ifs with hnil hm₀ hm
    · subst hnil
      exact iff_of_false (fun heq => by cases heq) Bool.false_ne_true
    · rw [hm₀]
      exact ih (hlt hnil) _ _
    · rw [hm]
      exact ih (hlt hnil) _ _
    · rw [ih (hlt hnil), skipped, skipped, decide_eq_true hm₀, decide_eq_true (Nat.succ_ne_zero m)]

/-- Parsing is an error exactly if a bar stands outside of a group. -/
theorem cmdMakeDescvec_error_iff (string : CString) (doc : Option CString) :
    cmdMakeDescvec string doc = .error .parse ↔ barOutside false false string :=
  cmdMakeDescvecLoop_error_iff (by omega) doc []

/-! ## The grammar -/

/-- Words, each after some text. -/
def spacedText (words : List (CString × CString)) : CString :=
  words.flatMap fun word => word.1 ++ word.2

/-- The words of the items stand in the string one after another, those of an item
    after bars, but for its first one. -/
def Barred (string : CString) (items : List (List CString)) : Prop :=
  ∃ (spaced : List (List (CString × CString))) (trailing : CString),
    spaced.map (List.map Prod.snd) = items ∧ spacedText spaced.flatten ++ trailing = string ∧
      ∀ item ∈ spaced, ∀ word ∈ item.tail, '|' ∈ word.1

/-- The text of words in a row, each behind its gap. -/
theorem spacedText_append (words words' : List (CString × CString)) :
    spacedText (words ++ words') = spacedText words ++ spacedText words' :=
  List.flatMap_append

/-- Behind the first alternative, each word of a group has a bar before it. -/
theorem others_barred (others : List Alt) (gap : CString) :
    ∃ (spaced : List (CString × CString)) (gap' : CString),
      spaced.map Prod.snd = others.map (fun alt => alt.word.text) ∧
        spacedText spaced ++ gap' = gap ++ othersText others ∧ ∀ word ∈ spaced, '|' ∈ word.1 := by
  induction others generalizing gap with
  | nil => exact ⟨[], gap, rfl, by simp [spacedText, othersText], List.forall_mem_nil _⟩
  | cons alt others ih =>
    obtain ⟨spaced, gap', hwords, htext, hbar⟩ := ih alt.after.text
    refine ⟨(gap ++ '|' :: alt.before.text, alt.word.text) :: spaced, gap', ?_, ?_, ?_⟩
    · rw [List.map_cons, List.map_cons, hwords]
    · have htail : othersText (alt :: others) = '|' :: (alt.before.text ++ (alt.word.text ++
          (alt.after.text ++ othersText others))) := by
        simp [othersText, Alt.text, List.append_assoc]
      rw [htail, ← htext]
      simp [spacedText, List.append_assoc]
    · intro word hword
      rcases List.mem_cons.1 hword with rfl | hword
      · simp
      · exact hbar word hword

/-- In the text of a layout, the words of its pieces are barred. -/
theorem pieces_barred (pieces : List (Blank × Piece)) (gap trailing : CString) :
    Barred (gap ++ (piecesText pieces ++ trailing)) (pieces.map fun piece => piece.2.words) := by
  induction pieces generalizing gap with
  | nil => exact ⟨[], gap ++ trailing, rfl, by simp [spacedText, piecesText], List.forall_mem_nil _⟩
  | cons piece pieces ih =>
    obtain ⟨before, w | ⟨first, others⟩⟩ := piece
    · obtain ⟨spaced, trailing', hwords, htext, hbar⟩ := ih []
      refine ⟨[(gap ++ before.text, w.text)] :: spaced, trailing', ?_, ?_, ?_⟩
      · rw [List.map_cons, List.map_cons, hwords]
        rfl
      · rw [List.flatten_cons, spacedText_append, List.append_assoc, htext]
        simp [spacedText, piecesText, Piece.text]
      · intro item hitem
        rcases List.mem_cons.1 hitem with rfl | hitem
        · exact List.forall_mem_nil _
        · exact hbar item hitem
    · -- The words of the group behind their bars, and the gap that runs on through the closing
      -- bracket.
      obtain ⟨group, gap', hgroup, hgrouptext, hgroupbar⟩ := others_barred others first.after.text
      obtain ⟨spaced, trailing', hwords, htext, hbar⟩ := ih (gap' ++ [')'])
      refine ⟨((gap ++ (before.text ++ '(' :: first.before.text), first.word.text) :: group) ::
        spaced, trailing', ?_, ?_, ?_⟩
      · rw [List.map_cons, List.map_cons, List.map_cons, hgroup, hwords]
        rfl
      · have hpiece : piecesText ((before, Piece.group first others) :: pieces) = before.text ++
            '(' :: (first.before.text ++ (first.word.text ++ ((first.after.text ++
              othersText others) ++ ')' :: piecesText pieces))) := by
          simp [piecesText, Piece.text, Alt.text, List.append_assoc]
        rw [List.flatten_cons, spacedText_append, List.append_assoc, htext, hpiece, ← hgrouptext]
        simp [spacedText, List.append_assoc]
      · intro item hitem
        rcases List.mem_cons.1 hitem with rfl | hitem
        · exact hgroupbar
        · exact hbar item hitem

/-- The string is a layout of words and groups. -/
def InGrammar (string : CString) : Prop := ∃ l : Layout, l.text = string

/-- The parser does right by a declaration: it ends, it stops at a parse error
    exactly if the declaration is no layout, and what it returns has no empty
    items and no empty words, and only words with bars between them in an item. -/
structure SpecRight (string : CString) (doc : Option CString) : Prop where
  terminates : cmdMakeDescvec string doc ≠ .error .fuel
  parse_iff : cmdMakeDescvec string doc = .error .parse ↔ ¬ InGrammar string
  items {strvec : List (List Desc)} (h : cmdMakeDescvec string doc = .ok strvec) :
    ∀ item ∈ strvec, item ≠ []
  words {strvec : List (List Desc)} (h : cmdMakeDescvec string doc = .ok strvec) :
    ∀ item ∈ strvec, ∀ desc ∈ item, desc.cmd ≠ []
  barred {strvec : List (List Desc)} (h : cmdMakeDescvec string doc = .ok strvec) :
    Barred string (strvec.map (List.map Desc.cmd))

/-- A piece has at least one word, and no empty one. -/
theorem Piece.words_ne_nil (piece : Piece) :
    piece.words ≠ [] ∧ ∀ word ∈ piece.words, word ≠ [] := by
  cases piece with
  | word w => exact ⟨List.cons_ne_nil _ _, fun word hword => List.mem_singleton.1 hword ▸ w.ne_nil⟩
  | group first others =>
    refine ⟨List.cons_ne_nil _ _, fun word hword => ?_⟩
    obtain ⟨alt, -, rfl⟩ := List.mem_map.1 hword
    exact alt.word.ne_nil

/-- A tight layout is parsed right. -/
theorem Layout.Tight.specRight {l : Layout} (h : l.Tight) (doc : Option CString) :
    SpecRight l.text doc := by
  have hparse := cmdMakeDescvec_text l doc
  rw [(Layout.parsed_eq_iff l.pieces false).2 h] at hparse
  have hcmd {strvec : List (List Desc)} (hok : cmdMakeDescvec l.text doc = .ok strvec) :
      strvec.map (List.map Desc.cmd) = l.items := by
    rw [hparse, Except.ok.injEq] at hok
    rw [← hok, assign_cmd, Layout.items]
  have hitem {strvec : List (List Desc)} (hok : cmdMakeDescvec l.text doc = .ok strvec)
      {item : List Desc} (hmem : item ∈ strvec) :
      ∃ piece : Piece, item.map Desc.cmd = piece.words := by
    have hcmds := List.mem_map_of_mem (f := List.map Desc.cmd) hmem
    rw [hcmd hok] at hcmds
    obtain ⟨piece, -, hpiece⟩ := List.mem_map.1 hcmds
    exact ⟨piece.2, hpiece.symm⟩
  -- The conditions one after another: it ends, it is no error, no item and no word is empty, and
  -- the words are where the text has them.
  refine ⟨cmdMakeDescvec_ne_fuel _ doc, ?_, fun hok item hmem => ?_,
    fun hok item hmem desc hdesc => ?_, fun hok => ?_⟩
  · rw [hparse]
    exact iff_of_false (fun heq => by cases heq) (not_not_intro ⟨l, rfl⟩)
  · obtain ⟨piece, hpiece⟩ := hitem hok hmem
    rintro rfl
    exact piece.words_ne_nil.1 hpiece.symm
  · obtain ⟨piece, hpiece⟩ := hitem hok hmem
    exact piece.words_ne_nil.2 _ (hpiece ▸ List.mem_map_of_mem hdesc)
  · rw [hcmd hok]
    exact pieces_barred l.pieces [] l.trailing.text

/-- The parser does right by a declaration exactly if it is a tight layout, or has
    a bar outside of a group. -/
theorem specRight_iff (string : CString) (doc : Option CString) :
    SpecRight string doc ↔
      (∃ l : Layout, l.Tight ∧ l.text = string) ∨ barOutside false false string := by
  constructor
  · intro h
    by_cases hin : InGrammar string
    · obtain ⟨l, rfl⟩ := hin
      refine .inl ⟨l, ?_, rfl⟩
      -- A loose layout gets an item of an empty word.
      by_contra hloose
      obtain ⟨item, hitem, hnil⟩ := Layout.nil_mem_parsed l.pieces false hloose
      rw [← assign_cmd (Layout.parsed false l.pieces) doc] at hitem
      obtain ⟨descs, hdescs, rfl⟩ := List.mem_map.1 hitem
      obtain ⟨desc, hdesc, hcmd⟩ := List.mem_map.1 hnil
      exact h.words (cmdMakeDescvec_text l doc) descs hdescs desc hdesc hcmd
    · exact .inr ((cmdMakeDescvec_error_iff string doc).1 (h.parse_iff.2 hin))
  · rintro (⟨l, htight, rfl⟩ | hout)
    · exact htight.specRight doc
    · -- An error is right for a text that is none of the grammar, and nothing else is asked then.
      have hparse := (cmdMakeDescvec_error_iff string doc).2 hout
      refine ⟨cmdMakeDescvec_ne_fuel _ doc, iff_of_true hparse ?_, ?_, ?_, ?_⟩
      · rintro ⟨l, rfl⟩
        rw [cmdMakeDescvec_text] at hparse
        cases hparse
      all_goals
        intro strvec hok
        rw [hparse] at hok
        cases hok

/-- An empty word is found in `(a||b)`, which is no parse error. -/
theorem specRight_bars : ¬ SpecRight "(a||b)".toList none := by
  intro h
  have hok : cmdMakeDescvec "(a||b)".toList none =
      .ok [[⟨['a'], none⟩, ⟨[], none⟩, ⟨['b'], none⟩]] := by decide
  exact h.words hok _ List.mem_cons_self ⟨[], none⟩ (by decide) rfl

end Mksh
