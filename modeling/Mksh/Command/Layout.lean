import Mksh.Command.Basic

/-!
# Layouts of a declaration

A declaration is laid out as words and groups of words, with white space around
them (`Layout`). What `cmdMakeDescvec` makes of the text of a layout is its items,
each word with the next line of the descriptions (`cmdMakeDescvec_text`), with an
exception: in a group that comes right after another one, white space after the
parenthesis is taken for an empty word (`parsed`).
-/

namespace Mksh

open CString

/-! ## Layouts -/

/-- White space. -/
structure Blank where
  text : CString
  blank : ∀ c ∈ text, isspace c

/-- A word of a declaration. -/
structure SpecWord where
  text : CString
  ne_nil : text ≠ []
  plain : ∀ c ∈ text, ¬ endsWord c
  head : text.head? ≠ some '('

/-- A word of a group, with white space around it. -/
structure Alt where
  before : Blank
  word : SpecWord
  after : Blank

/-- A word of a declaration, or a group of alternatives. -/
inductive Piece
  | word (word : SpecWord)
  | group (first : Alt) (others : List Alt)

/-- An alternative with its blanks. -/
def Alt.text (alt : Alt) : CString := alt.before.text ++ alt.word.text ++ alt.after.text

/-- The words of a group after the first one. -/
def othersText (others : List Alt) : CString := others.flatMap fun alt => '|' :: alt.text

/-- A word, or the alternatives with bars between them, in parentheses. -/
def Piece.text : Piece → CString
  | .word w => w.text
  | .group first others => '(' :: first.text ++ othersText others ++ [')']

/-- The alternatives of an item. -/
def Piece.words : Piece → List CString
  | .word w => [w.text]
  | .group first others => (first :: others).map fun alt => alt.word.text

/-- Pieces, each with the blanks before it. -/
def piecesText (pieces : List (Blank × Piece)) : CString :=
  pieces.flatMap fun piece => piece.1.text ++ piece.2.text

/-- There is white space after each word, before the next piece. -/
def Separated : Bool → List (Blank × Piece) → Prop
  | _, [] => True
  | afterWord, (gap, .word _) :: pieces => (afterWord → gap.text ≠ []) ∧ Separated true pieces
  | afterWord, (gap, .group _ _) :: pieces => (afterWord → gap.text ≠ []) ∧ Separated false pieces

/-- Words and groups, each with white space before it. -/
structure Layout where
  pieces : List (Blank × Piece)
  trailing : Blank
  separated : Separated false pieces

namespace Layout

/-- The declaration that is laid out so. -/
def text (l : Layout) : CString := piecesText l.pieces ++ l.trailing.text

/-- The items that it declares. -/
def items (l : Layout) : List (List CString) := l.pieces.map fun piece => piece.2.words

/-- No group right after another one has white space after its parenthesis. -/
def TightAfter : Bool → List (Blank × Piece) → Prop
  | _, [] => True
  | _, (_, .word _) :: pieces => TightAfter false pieces
  | afterGroup, (_, .group first _) :: pieces =>
    (afterGroup → first.before.text = []) ∧ TightAfter true pieces

/-- There is no such white space, which the parser would take for the end of a word. -/
def Tight (l : Layout) : Prop := TightAfter false l.pieces

/-- The items that are found: with an empty word at such a place. -/
def parsed : Bool → List (Blank × Piece) → List (List CString)
  | _, [] => []
  | _, (_, .word w) :: pieces => [w.text] :: parsed false pieces
  | afterGroup, (_, .group first others) :: pieces =>
    (if afterGroup ∧ first.before.text ≠ [] then [] :: (Piece.group first others).words
      else (Piece.group first others).words) :: parsed true pieces

end Layout

/-- Words with the next lines of the descriptions, and the descriptions after them. -/
def assignItem : List CString → Option CString → List Desc × Option CString
  | [], dp => ([], dp)
  | word :: words, dp =>
    (⟨word, (cmdDescStr dp).1⟩ :: (assignItem words (cmdDescStr dp).2).1,
      (assignItem words (cmdDescStr dp).2).2)

/-- Items with the lines of the help, in order. -/
def assign : List (List CString) → Option CString → List (List Desc)
  | [], _ => []
  | item :: items, dp => (assignItem item dp).1 :: assign items (assignItem item dp).2

/-! ## Punctuation -/

/-- No punctuation comes first. -/
def Starts (cp : CString) : Prop := ∀ c ∈ cp.head?, ¬ endsWord c ∧ c ≠ '('

variable {multiple : ℕ} {cp rest : CString} {dp : Option CString} {allvec pre : List (List Desc)}
  {r : Except SpecError (List (List Desc))} {desc : Desc} {c : Char}

/-- White space ends a word. -/
theorem endsWord_of_isspace (h : isspace c) : endsWord c := by simp [endsWord, h]

/-- A word starts what follows it. -/
theorem SpecWord.starts (word : SpecWord) (rest : CString) : Starts (word.text ++ rest) := by
  obtain ⟨c, cs, hc⟩ := List.exists_cons_of_ne_nil word.ne_nil
  intro c' hc'
  rw [hc, List.cons_append, List.head?_cons] at hc'
  obtain rfl := Option.some.inj hc'
  refine ⟨word.plain c (by simp [hc]), ?_⟩
  rintro rfl
  exact word.head (by simp [hc])

theorem starts_nil : Starts [] := fun _ hc => absurd hc (Option.not_mem_none _)

/-- White space before something is dropped. -/
theorem Blank.dropWhile_append (blank : Blank) (cp : CString) :
    (blank.text ++ cp).dropWhile isspace = cp.dropWhile isspace :=
  List.dropWhile_append_of_pos blank.blank

/-- Before a word, there is none to drop. -/
theorem Starts.dropWhile_eq (h : Starts cp) : cp.dropWhile isspace = cp := by
  rcases cp with _ | ⟨c, cs⟩
  · rfl
  · exact List.dropWhile_cons_of_neg fun hc => (h c rfl).1 (endsWord_of_isspace hc)

theorem skipOpen_of_ne (h : cp.head? ≠ some '(') : skipOpen (multiple, cp) = (multiple, cp) := by
  rw [skipOpen.eq_def]
  split
  next heq =>
    obtain ⟨rfl, rfl⟩ := Prod.mk.inj heq
    exact absurd rfl h
  · rfl

theorem skipClose_of_ne (h : cp.head? ≠ some ')') : skipClose (multiple, cp) = (multiple, cp) := by
  rw [skipClose.eq_def]
  split
  next heq =>
    obtain ⟨rfl, rfl⟩ := Prod.mk.inj heq
    exact absurd rfl h
  · rfl

theorem skipBar_of_ne (h : cp.head? ≠ some '|') : skipBar (multiple, cp) = .ok (multiple, cp) := by
  rw [skipBar.eq_def]
  split
  next heq =>
    obtain ⟨rfl, rfl⟩ := Prod.mk.inj heq
    exact absurd rfl h
  · rfl

/-- A word does not start with punctuation. -/
theorem Starts.head_ne (h : Starts cp) : cp.head? ≠ some '(' ∧ cp.head? ≠ some ')' ∧
    cp.head? ≠ some '|' := by
  refine ⟨fun hc => (h '(' hc).2 rfl, fun hc => ?_, fun hc => ?_⟩
  · exact (h ')' hc).1 (by decide)
  · exact (h '|' hc).1 (by decide)

/-- White space is no punctuation. -/
theorem Blank.head_ne (blank : Blank) (h : cp.head? ≠ some c) (hc : ¬ isspace c) :
    (blank.text ++ cp).head? ≠ some c := by
  rcases hb : blank.text with _ | ⟨b, bs⟩
  · exact h
  · rintro ⟨⟩
    exact hc (blank.blank c (by simp [hb]))

section Skip

variable (gap before : Blank)

/-- Before a word, the gap is skipped and nothing else. -/
theorem skipPunctuation_blank (h : Starts cp) :
    skipPunctuation multiple (gap.text ++ cp) = .ok (multiple, cp) := by
  obtain ⟨h₁, h₂, h₃⟩ := h.head_ne
  simp only [skipPunctuation, gap.dropWhile_append, h.dropWhile_eq, skipOpen_of_ne h₁,
    skipClose_of_ne h₂, skipBar_of_ne h₃]

/-- At a parenthesis that opens a group, the rest is skipped as if it were first. -/
theorem skipPunctuation_open (h : Starts cp) :
    skipPunctuation multiple (gap.text ++ '(' :: (before.text ++ cp)) = .ok (1, cp) := by
  obtain ⟨h₁, h₂, h₃⟩ := h.head_ne
  have hopen : skipOpen (multiple, '(' :: (before.text ++ cp)) = (1, before.text ++ cp) := rfl
  simp only [skipPunctuation, gap.dropWhile_append, List.dropWhile_cons_of_neg (p := isspace)
    (a := '(') (by decide), hopen, skipClose_of_ne (before.head_ne h₂ (by decide)),
    skipBar_of_ne (before.head_ne h₃ (by decide)), before.dropWhile_append, h.dropWhile_eq,
    skipOpen_of_ne h₁]

/-- Within a group, a bar and the gaps around it are skipped. -/
theorem skipPunctuation_bar (hm : multiple ≠ 0) (h : Starts cp) :
    skipPunctuation multiple (gap.text ++ '|' :: (before.text ++ cp)) = .ok (multiple, cp) := by
  obtain ⟨h₁, h₂, h₃⟩ := h.head_ne
  have hbar : skipBar (skipClose (skipOpen (multiple, '|' :: (before.text ++ cp)))) =
      .ok (multiple, before.text ++ cp) := if_neg hm
  simp only [skipPunctuation, gap.dropWhile_append, List.dropWhile_cons_of_neg (p := isspace)
    (a := '|') (by decide), hbar, before.dropWhile_append, h.dropWhile_eq, skipOpen_of_ne h₁]

/-- At the end of a group, its parenthesis and the gaps around it are skipped. -/
theorem skipPunctuation_close (h : Starts cp) :
    skipPunctuation multiple (gap.text ++ ')' :: (before.text ++ cp)) = .ok (0, cp) := by
  obtain ⟨h₁, h₂, h₃⟩ := h.head_ne
  have hclose : skipClose (skipOpen (multiple, ')' :: (before.text ++ cp))) =
      (0, before.text ++ cp) := rfl
  simp only [skipPunctuation, gap.dropWhile_append, List.dropWhile_cons_of_neg (p := isspace)
    (a := ')') (by decide), hclose, skipBar_of_ne (before.head_ne h₃ (by decide)),
    before.dropWhile_append, h.dropWhile_eq, skipOpen_of_ne h₁]

/-- At a parenthesis that closes a group, one that opens another group is skipped,
    but not the white space after it. -/
theorem skipPunctuation_close_open :
    skipPunctuation multiple (gap.text ++ ')' :: (before.text ++ '(' :: cp)) = .ok (1, cp) := by
  have hclose : skipClose (skipOpen (multiple, ')' :: (before.text ++ '(' :: cp))) =
      (0, before.text ++ '(' :: cp) := rfl
  have hbar : (before.text ++ '(' :: cp).head? ≠ some '|' :=
    before.head_ne (by simp) (by decide)
  simp only [skipPunctuation, gap.dropWhile_append, List.dropWhile_cons_of_neg (p := isspace)
    (a := ')') (by decide), hclose, skipBar_of_ne hbar, before.dropWhile_append,
    List.dropWhile_cons_of_neg (p := isspace) (a := '(') (by decide)]
  rfl

end Skip

/-! ## Parsing a layout -/

/-- What parsing gives from some place on, whatever fuel is left. -/
def Parses (multiple : ℕ) (cp : CString) (dp : Option CString) (allvec : List (List Desc))
    (r : Except SpecError (List (List Desc))) : Prop :=
  ∀ fuel, cp.length < fuel → cmdMakeDescvecLoop fuel multiple cp dp allvec = r

/-- Where only punctuation is left, parsing is done. -/
theorem parses_end {m : ℕ} (h : skipPunctuation multiple cp = .ok (m, [])) :
    Parses multiple cp dp allvec (.ok allvec) := by
  intro fuel hfuel
  obtain ⟨fuel, rfl⟩ := Nat.exists_eq_add_of_lt hfuel
  simp only [cmdMakeDescvecLoop, h, if_pos]

/-- The place of a new word: it is put into a new vector, or into the last one. -/
def addDesc (multiple : ℕ) (allvec : List (List Desc)) (desc : Desc) : List (List Desc) :=
  if multiple ≤ 1 then allvec ++ [[desc]] else setLast allvec desc

/-- A word, and how parsing goes on after it. -/
theorem parses_word {m : ℕ} {word : CString}
    (h : skipPunctuation multiple cp = .ok (m, word ++ rest))
    (hword : ∀ c ∈ word, ¬ endsWord c) (hrest : ∀ c ∈ rest.head?, endsWord c)
    (hne : word ++ rest ≠ [])
    (hparses : Parses (if m = 0 then 0 else m + 1) rest (cmdDescStr dp).2
      (addDesc m allvec ⟨word, (cmdDescStr dp).1⟩) r) :
    Parses multiple cp dp allvec r := by
  intro fuel hfuel
  obtain ⟨fuel, rfl⟩ := Nat.exists_eq_add_of_lt hfuel
  have htake : (word ++ rest).takeWhile (fun c => !endsWord c) = word := by
    rw [List.takeWhile_append_of_pos fun c hc => by simpa using hword c hc]
    rcases rest with _ | ⟨c, cs⟩
    · simp
    · simp [hrest c rfl]
  have hdrop : (word ++ rest).dropWhile (fun c => !endsWord c) = rest := by
    rw [List.dropWhile_append_of_pos fun c hc => by simpa using hword c hc]
    rcases rest with _ | ⟨c, cs⟩
    · rfl
    · simp [hrest c rfl]
  have hlt := length_dropWhile_lt h hne
  rw [hdrop] at hlt
  have hloop := hparses (cp.length + fuel) (by omega)
  simp only [cmdMakeDescvecLoop, h, if_neg hne, htake, hdrop]
  -- Out of a group, at its start, or within it.
  rcases m with _ | _ | m
  · simpa [addDesc] using hloop
  · simpa [addDesc] using hloop
  · simpa [addDesc] using hloop

/-- A descriptor is added to the last item. -/
theorem setLast_append (pre : List (List Desc)) (descs : List Desc) (desc : Desc) :
    setLast (pre ++ [descs]) desc = pre ++ [descs ++ [desc]] := by
  rw [setLast, List.dropLast_concat, List.getLastD_concat]

/-- Where white space, or punctuation, comes after a word. -/
theorem Blank.ends (blank : Blank) (h : ∀ c ∈ cp.head?, endsWord c) :
    ∀ c ∈ (blank.text ++ cp).head?, endsWord c := by
  rcases hb : blank.text with _ | ⟨b, bs⟩
  · exact h
  · rintro c ⟨⟩
    exact endsWord_of_isspace (blank.blank b (by simp [hb]))

/-- The other words of a group go into the last vector, up to where it is closed. -/
theorem parses_others {items : List (List CString)}
    (hclose : ∀ multiple (after : Blank) dp allvec, Parses multiple (after.text ++ ')' :: rest) dp
      allvec (.ok (allvec ++ assign items dp)))
    (others : List Alt) (hm : 2 ≤ multiple) (after : Blank) (dp : Option CString)
    (pre : List (List Desc)) (descs : List Desc) :
    Parses multiple (after.text ++ (othersText others ++ ')' :: rest)) dp (pre ++ [descs])
      (.ok (pre ++ (descs ++ (assignItem (others.map fun alt => alt.word.text) dp).1) ::
        assign items (assignItem (others.map fun alt => alt.word.text) dp).2)) := by
  induction others generalizing multiple after dp descs with
  | nil =>
    have h := hclose multiple after dp (pre ++ [descs])
    rw [List.append_assoc, List.singleton_append] at h
    simpa [othersText, assignItem] using h
  | cons alt others ih =>
    have htext : othersText (alt :: others) ++ ')' :: rest = '|' :: (alt.before.text ++
        (alt.word.text ++ (alt.after.text ++ (othersText others ++ ')' :: rest)))) := by
      simp [othersText, Alt.text, List.append_assoc]
    rw [htext]
    refine parses_word (skipPunctuation_bar _ _ (by omega) (alt.word.starts _)) alt.word.plain
      (alt.after.ends ?_) (by simp [alt.word.ne_nil]) ?_
    · intro c hc
      -- A bar or the closing bracket is next, and ends the word.
      rcases others with _ | ⟨_, _⟩
      · obtain rfl := Option.some.inj hc
        decide
      · obtain rfl := Option.some.inj hc
        decide
    · rw [if_neg (by omega), addDesc, if_neg (by omega), setLast_append]
      have h := ih (show 2 ≤ multiple + 1 by omega) alt.after (cmdDescStr dp).2
        (descs ++ [⟨alt.word.text, (cmdDescStr dp).1⟩])
      rw [List.append_assoc descs, List.singleton_append] at h
      exact h

/-- Where the words of a group end. -/
theorem others_ends (others : List Alt) (rest : CString) :
    ∀ c ∈ (othersText others ++ ')' :: rest).head?, endsWord c := by
  intro c hc
  rcases others with _ | ⟨_, _⟩
  · obtain rfl := Option.some.inj hc
    decide
  · obtain rfl := Option.some.inj hc
    decide

section Group

variable {items : List (List CString)} {first : Alt} {others : List Alt}
  (hclose : ∀ multiple (after : Blank) dp allvec, Parses multiple (after.text ++ ')' :: rest) dp
    allvec (.ok (allvec ++ assign items dp)))

include hclose

/-- A group is an item of its own. -/
theorem parses_group (h : skipPunctuation multiple cp = .ok (1,
      first.word.text ++ (first.after.text ++ (othersText others ++ ')' :: rest))))
    (dp : Option CString) (allvec : List (List Desc)) :
    Parses multiple cp dp allvec
      (.ok (allvec ++ assign ((Piece.group first others).words :: items) dp)) := by
  refine parses_word h first.word.plain (first.after.ends (others_ends others rest))
    (by simp [first.word.ne_nil]) ?_
  exact parses_others hclose others le_rfl first.after _ allvec _

/-- After white space that is not skipped, the item has an empty word. -/
theorem parses_group_empty (hbefore : first.before.text ≠ [])
    (h : skipPunctuation multiple cp = .ok (1, first.before.text ++
      (first.word.text ++ (first.after.text ++ (othersText others ++ ')' :: rest)))))
    (dp : Option CString) (allvec : List (List Desc)) :
    Parses multiple cp dp allvec
      (.ok (allvec ++ assign (([] :: (Piece.group first others).words) :: items) dp)) := by
  obtain ⟨b, bs, hb⟩ := List.exists_cons_of_ne_nil hbefore
  have hends : ∀ c ∈ (first.before.text ++ (first.word.text ++ (first.after.text ++
      (othersText others ++ ')' :: rest)))).head?, endsWord c := by
    rw [hb]
    rintro c ⟨⟩
    exact endsWord_of_isspace (first.before.blank b (by simp [hb]))
  refine parses_word (show skipPunctuation multiple cp = .ok (1, [] ++ _) from h)
    (fun _ hc => absurd hc List.not_mem_nil) hends
    (by simp [hbefore]) ?_
  refine parses_word (skipPunctuation_blank first.before (first.word.starts _)) first.word.plain
    (first.after.ends (others_ends others rest)) (by simp [first.word.ne_nil]) ?_
  have h := parses_others hclose others (show 2 ≤ 1 + 1 + 1 by omega) first.after
    (cmdDescStr (cmdDescStr dp).2).2 allvec
    ([⟨[], (cmdDescStr dp).1⟩] ++ [⟨first.word.text, (cmdDescStr (cmdDescStr dp).2).1⟩])
  rw [← setLast_append] at h
  exact h

end Group

/-- After a word, the next piece comes after white space. -/
theorem Separated.ends {pieces : List (Blank × Piece)} (h : Separated true pieces)
    (trailing : Blank) : ∀ c ∈ (piecesText pieces ++ trailing.text).head?, endsWord c := by
  have hgap (gap : Blank) (hgap : gap.text ≠ []) (cp : CString) :
      ∀ c ∈ (gap.text ++ cp).head?, endsWord c := by
    obtain ⟨b, bs, hb⟩ := List.exists_cons_of_ne_nil hgap
    rw [hb]
    rintro c ⟨⟩
    exact endsWord_of_isspace (gap.blank b (by simp [hb]))
  rcases pieces with _ | ⟨⟨gap, _ | _⟩, pieces⟩
  · intro c hc
    exact endsWord_of_isspace (trailing.blank c (List.mem_of_head? hc))
  · rw [piecesText, List.flatMap_cons, List.append_assoc, List.append_assoc]
    exact hgap gap (h.1 rfl) _
  · rw [piecesText, List.flatMap_cons, List.append_assoc, List.append_assoc]
    exact hgap gap (h.1 rfl) _

/-- Parsing what is left of a layout: at the start or after a word, and where the
    last group is closed. -/
theorem parses_pieces (trailing : Blank) (pieces : List (Blank × Piece)) (afterWord : Bool)
    (hsep : Separated afterWord pieces) :
    (∀ dp allvec, Parses 0 (piecesText pieces ++ trailing.text) dp allvec
      (.ok (allvec ++ assign (Layout.parsed false pieces) dp))) ∧
    ∀ multiple (after : Blank) dp allvec,
      Parses multiple (after.text ++ ')' :: (piecesText pieces ++ trailing.text)) dp allvec
        (.ok (allvec ++ assign (Layout.parsed true pieces) dp)) := by
  -- The second part is for the pieces behind a group, which is closed by the punctuation of the
  -- next word.
  induction pieces generalizing afterWord with
  | nil =>
    refine ⟨fun dp allvec => ?_, fun multiple after dp allvec => ?_⟩
    · rw [Layout.parsed, assign, List.append_nil]
      have h : skipPunctuation 0 (trailing.text ++ []) = _ :=
        skipPunctuation_blank trailing starts_nil
      rw [List.append_nil] at h
      exact parses_end h
    · rw [Layout.parsed, assign, List.append_nil]
      have h : skipPunctuation multiple (after.text ++ ')' :: (trailing.text ++ [])) = _ :=
        skipPunctuation_close after trailing starts_nil
      rw [List.append_nil] at h
      exact parses_end h
  | cons piece pieces ih =>
    obtain ⟨gap, piece⟩ := piece
    cases piece with
    | word w =>
      obtain ⟨hword, -⟩ := ih true hsep.2
      have htext : piecesText ((gap, .word w) :: pieces) ++ trailing.text =
          gap.text ++ (w.text ++ (piecesText pieces ++ trailing.text)) := by
        simp [piecesText, Piece.text]
      have hafter (dp : Option CString) (allvec : List (List Desc)) :
          Parses 0 (piecesText pieces ++ trailing.text) (cmdDescStr dp).2
            (allvec ++ [[⟨w.text, (cmdDescStr dp).1⟩]])
            (.ok (allvec ++ assign ([w.text] :: Layout.parsed false pieces) dp)) := by
        have h := hword (cmdDescStr dp).2 (allvec ++ [[⟨w.text, (cmdDescStr dp).1⟩]])
        rw [List.append_assoc, List.singleton_append] at h
        exact h
      rw [htext]
      refine ⟨fun dp allvec => ?_, fun multiple after dp allvec => ?_⟩
      · exact parses_word (skipPunctuation_blank gap (w.starts _)) w.plain
          (hsep.2.ends trailing) (by simp [w.ne_nil]) (hafter dp allvec)
      · exact parses_word (skipPunctuation_close after gap (w.starts _)) w.plain
          (hsep.2.ends trailing) (by simp [w.ne_nil]) (hafter dp allvec)
    | group first others =>
      obtain ⟨-, hclose⟩ := ih false hsep.2
      have htext : piecesText ((gap, .group first others) :: pieces) ++ trailing.text =
          gap.text ++ '(' :: (first.before.text ++ (first.word.text ++ (first.after.text ++
            (othersText others ++ ')' :: (piecesText pieces ++ trailing.text))))) := by
        simp [piecesText, Piece.text, Alt.text]
      rw [htext]
      refine ⟨fun dp allvec => ?_, fun multiple after dp allvec => ?_⟩
      · rw [Layout.parsed, if_neg (by simp)]
        exact parses_group hclose (skipPunctuation_open gap first.before (first.word.starts _))
          dp allvec
      · rw [Layout.parsed]
        -- A gap after the bracket of the second group is taken for an empty word.
        by_cases hbefore : first.before.text = []
        · rw [if_neg (by simp [hbefore]), hbefore, List.nil_append]
          exact parses_group hclose (skipPunctuation_close_open after gap) dp allvec
        · rw [if_pos ⟨rfl, hbefore⟩]
          exact parses_group_empty hclose hbefore (skipPunctuation_close_open after gap) dp allvec

namespace Layout

/-- The items are found when no white space is taken for a word. -/
theorem parsed_eq_iff (pieces : List (Blank × Piece)) (afterGroup : Bool) :
    parsed afterGroup pieces = pieces.map (fun piece => piece.2.words) ↔
      TightAfter afterGroup pieces := by
  induction pieces generalizing afterGroup with
  | nil => exact iff_of_true rfl trivial
  | cons piece pieces ih =>
    obtain ⟨gap, _ | ⟨first, others⟩⟩ := piece
    · rw [parsed, List.map_cons, TightAfter, ← ih, List.cons.injEq]
      exact and_iff_right rfl
    · rw [parsed, List.map_cons, TightAfter, ← ih, List.cons.injEq]
      refine and_congr_left fun _ => ?_
      rcases eq_or_ne first.before.text [] with hb | hb
      · exact iff_of_true (if_neg fun h => h.2 hb) fun _ => hb
      · cases afterGroup with
        | false => exact iff_of_true (if_neg fun h => absurd h.1 (by decide)) fun h => nomatch h
        | true =>
          rw [if_pos ⟨rfl, hb⟩]
          exact iff_of_false (List.cons_ne_self _ _) fun h => hb (h rfl)

/-- An empty word is found where white space is taken for one. -/
theorem nil_mem_parsed (pieces : List (Blank × Piece)) (afterGroup : Bool)
    (h : ¬ TightAfter afterGroup pieces) : ∃ item ∈ parsed afterGroup pieces, [] ∈ item := by
  induction pieces generalizing afterGroup with
  | nil => exact absurd trivial h
  | cons piece pieces ih =>
    obtain ⟨gap, _ | ⟨first, others⟩⟩ := piece
    · obtain ⟨item, hitem, hnil⟩ := ih false h
      exact ⟨item, List.mem_cons_of_mem _ hitem, hnil⟩
    · rw [TightAfter, not_and_or] at h
      rcases h with h | h
      · have hc : afterGroup ∧ first.before.text ≠ [] := Classical.not_imp.1 h
        refine ⟨_, List.mem_cons_self, ?_⟩
        rw [if_pos hc]
        exact List.mem_cons_self
      · obtain ⟨item, hitem, hnil⟩ := ih true h
        exact ⟨item, List.mem_cons_of_mem _ hitem, hnil⟩

end Layout

/-- What is made of a layout. -/
theorem cmdMakeDescvec_text (l : Layout) (descstr : Option CString) :
    cmdMakeDescvec l.text descstr = .ok (assign (Layout.parsed false l.pieces) descstr) :=
  (parses_pieces l.trailing l.pieces false l.separated).1 descstr [] _ (by
    rw [Layout.text]
    omega)

/-! ## Descriptions -/

/-- Assigning the lines of the help keeps the words of an item. -/
theorem assignItem_cmd (words : List CString) (dp : Option CString) :
    (assignItem words dp).1.map Desc.cmd = words := by
  induction words generalizing dp with
  | nil => rfl
  | cons word words ih => exact congrArg (word :: ·) (ih (cmdDescStr dp).2)

/-- It keeps those of all items. -/
theorem assign_cmd (items : List (List CString)) (dp : Option CString) :
    (assign items dp).map (List.map Desc.cmd) = items := by
  induction items generalizing dp with
  | nil => rfl
  | cons item items ih =>
    rw [assign, List.map_cons, assignItem_cmd, ih]

/-- The lines of the descriptions that are not blank, without the white space before
    them. -/
def docLines (descstr : CString) : List CString :=
  ((descstr.splitOn '\n').map (List.dropWhile isspace)).filter (· ≠ [])

/-- Words with the lines of the descriptions, as long as there are some. -/
def describe : List (List CString) → List CString → List (List Desc)
  | [], _ => []
  | item :: items, lines =>
    item.zipIdx.map (fun word => ⟨word.1, lines[word.2]?⟩) ::
      describe items (lines.drop item.length)

/-- Leading white space is not part of a line. -/
theorem docLines_cons_of_isspace {c : Char} (hc : isspace c) (s : CString) :
    docLines (c :: s) = docLines s := by
  obtain ⟨line, lines, hs⟩ := List.exists_cons_of_ne_nil (List.splitOn_ne_nil '\n' s)
  rw [docLines, List.splitOn_cons_eq_if_modifyHead, docLines]
  split_ifs
  · simp
  · rw [hs, List.modifyHead_cons, List.map_cons, List.map_cons, List.dropWhile_cons_of_pos hc]

/-- So it may be dropped before the lines are taken. -/
theorem docLines_dropWhile (s : CString) : docLines (s.dropWhile isspace) = docLines s := by
  induction s with
  | nil => rfl
  | cons c s ih =>
    by_cases hc : isspace c
    · rw [List.dropWhile_cons_of_pos hc, ih, docLines_cons_of_isspace hc]
    · rw [List.dropWhile_cons_of_neg hc]

/-- A line, and those after it. -/
theorem docLines_append {line rest : CString} (hhead : ∀ c ∈ line.head?, ¬ isspace c)
    (hne : line ≠ []) (hline : '\n' ∉ line) (hrest : ∀ c ∈ rest.head?, c = '\n') :
    docLines (line ++ rest) = line :: docLines rest := by
  have hdrop : line.dropWhile isspace = line := by
    rcases line with _ | ⟨c, cs⟩
    · rfl
    · exact List.dropWhile_cons_of_neg (hhead c rfl)
  rcases rest with _ | ⟨c, rest⟩
  · rw [List.append_nil, docLines, List.splitOn_eq_singleton hline, List.map_singleton, hdrop,
      List.filter_cons_of_pos (by simpa using hne)]
    rfl
  · obtain rfl := hrest c rfl
    rw [docLines_cons_of_isspace (by decide), docLines, List.splitOn_append_cons_self,
      List.splitOn_eq_singleton hline, List.singleton_append, List.map_cons, hdrop,
      List.filter_cons_of_pos (by simpa using hne)]
    rfl

/-- Without carriage returns, a line ends where `cmdDescStr` stops. -/
theorem docLines_cons {c : Char} {cs : CString} (hc : ¬ isspace c) (hcr : '\r' ∉ c :: cs) :
    docLines (c :: cs) = (c :: cs).takeWhile (fun c => !(c = '\r' || c = '\n')) ::
      docLines ((c :: cs).dropWhile fun c => !(c = '\r' || c = '\n')) := by
  have hhead : (!(c = '\r' || c = '\n')) = true := by
    rw [Bool.not_eq_true', Bool.or_eq_false_iff, decide_eq_false_iff_not, decide_eq_false_iff_not]
    refine ⟨?_, ?_⟩
    · rintro rfl
      exact hc (by decide)
    · rintro rfl
      exact hc (by decide)
  conv_lhs => rw [← List.takeWhile_append_dropWhile (p := fun c => !(c = '\r' || c = '\n'))
    (l := c :: cs)]
  refine docLines_append ?_ ?_ ?_ fun b hb => ?_
  · rw [List.takeWhile_cons, if_pos hhead]
    rintro b ⟨⟩
    exact hc
  · rw [List.takeWhile_cons, if_pos hhead]
    exact List.cons_ne_nil _ _
  · intro hmem
    have hnl := List.all_takeWhile (p := fun c => !(c = '\r' || c = '\n')) (l := c :: cs)
    exact absurd (List.all_eq_true.1 hnl _ hmem) (by decide)
  · have hmem := (List.dropWhile_suffix _).subset (List.mem_of_mem_head? hb)
    have hstop := List.head?_dropWhile_not (fun c => !(c = '\r' || c = '\n')) (c :: cs)
    rw [Option.mem_def.1 hb] at hstop
    -- A line ends at a newline, since there are no carriage returns.
    rcases show b = '\r' ∨ b = '\n' by simpa [or_iff_not_imp_left] using hstop with rfl | rfl
    · exact absurd hmem hcr
    · rfl

/-- The next description is the next line. -/
theorem cmdDescStr_eq {descstr : CString} (h : '\r' ∉ descstr) :
    ∃ descstr', cmdDescStr (some descstr) = ((docLines descstr)[0]?, some descstr') ∧
      docLines descstr' = (docLines descstr).drop 1 ∧ '\r' ∉ descstr' := by
  rw [← docLines_dropWhile descstr]
  simp only [cmdDescStr]
  rcases hcp : descstr.dropWhile isspace with _ | ⟨c, cs⟩
  · refine ⟨descstr, rfl, ?_, h⟩
    rw [← docLines_dropWhile, hcp]
    rfl
  have hc : ¬ isspace c := by
    have hhead := List.head_dropWhile_not isspace (l := descstr) (by simp [hcp])
    simpa [hcp] using hhead
  have hcr : '\r' ∉ c :: cs := fun hmem =>
    h ((List.dropWhile_suffix isspace).subset (hcp ▸ hmem))
  rw [if_neg (List.cons_ne_nil _ _), docLines_cons hc hcr]
  exact ⟨_, rfl, rfl, fun hmem => hcr ((List.dropWhile_suffix _).subset hmem)⟩

/-- Each word gets the next line. -/
theorem assignItem_docLines (words : List CString) {descstr : CString} (h : '\r' ∉ descstr) :
    (assignItem words (some descstr)).1 =
        words.zipIdx.map (fun word => ⟨word.1, (docLines descstr)[word.2]?⟩) ∧
      ∃ descstr', (assignItem words (some descstr)).2 = some descstr' ∧
        docLines descstr' = (docLines descstr).drop words.length ∧ '\r' ∉ descstr' := by
  induction words generalizing descstr with
  | nil => exact ⟨rfl, descstr, rfl, rfl, h⟩
  | cons word words ih =>
    obtain ⟨descstr₁, hnext, hlines, hcr⟩ := cmdDescStr_eq h
    obtain ⟨hitem, descstr', hrest, hlines', hcr'⟩ := ih hcr
    rw [assignItem, hnext]
    refine ⟨?_, descstr', hrest, ?_, hcr'⟩
    · rw [hitem, hlines, List.zipIdx_cons, List.map_cons, List.zipIdx_succ, List.map_map]
      simp only [List.getElem?_drop, Function.comp_def, Nat.add_comm]
    · rw [hlines', hlines, List.drop_drop, List.length_cons, Nat.add_comm]

/-- The parser assigns to the items the lines of the help, in their order. -/
theorem assign_docLines (items : List (List CString)) {descstr : CString} (h : '\r' ∉ descstr) :
    assign items (some descstr) = describe items (docLines descstr) := by
  induction items generalizing descstr with
  | nil => rfl
  | cons item items ih =>
    obtain ⟨hitem, descstr', hrest, hlines, hcr⟩ := assignItem_docLines item h
    rw [assign, describe, hitem, hrest, ih hcr, hlines]

end Mksh
