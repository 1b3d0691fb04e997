import Mksh.Command.Pieces
import Mksh.Lib.Fields

/-!
# Words and lines

A line is split into its words (`lineStrvec`), by the older splitter as well as by the
one that looks for quotes, unless there are two of them, and the words make a line again
when they are joined with single spaces (`splitters_agree`).
-/

namespace Mksh

open CString

variable {c : Char} {s w : CString} {ws : List CString}

/-- Breaking up string into each command piece, whatever its quotes. -/
def cmdMakeStrvecOld (string : CString) : Option (List CString) :=
  match string.dropWhile isspace with
  | [] => none
  | c :: cp => if c = '!' ∨ c = '#' then none else some (strvecLoop [] (c :: cp))

/-- The words of a line, unless it is blank or a comment. -/
def lineStrvec (s : CString) : Option (List CString) :=
  if s.find? (!isspace ·) = none ∨ s.find? (!isspace ·) = some '!' ∨
    s.find? (!isspace ·) = some '#' then none
  else some (lineWords s)

/-- The old splitter takes the words between white space. -/
theorem cmdMakeStrvecOld_eq (s : CString) : cmdMakeStrvecOld s = lineStrvec s := by
  rw [cmdMakeStrvecOld, lineStrvec, List.find?_not_eq_head?_dropWhile]
  have hstop := List.head?_dropWhile_not isspace s
  rcases hcp : s.dropWhile isspace with _ | ⟨c, cp⟩
  · rfl
  · rw [hcp] at hstop
    have hc : ¬isspace c := by simpa using hstop
    have hloop : strvecLoop [] (c :: cp) = lineWords s := by
      rw [strvecLoop_eq hc, ← hcp, lineWords_dropWhile]
    simp [hloop]

/-- So does the new one, unless there are two quotes. -/
theorem cmdMakeStrvec_eq_lineStrvec (hs : s.count '"' ≤ 1) : cmdMakeStrvec s = lineStrvec s := by
  rw [cmdMakeStrvec_eq, blankQuotes_of_count hs, lineStrvec, List.find?_not_eq_head?_dropWhile]
  rcases (s.dropWhile isspace).head? with _ | c
  · rfl
  · simp

/-- The words of some line that has at most one quote. -/
structure IsWordList (ws : List CString) : Prop where
  ne_nil : ws ≠ []
  isWord : ∀ w ∈ ws, w ≠ [] ∧ ∀ c ∈ w, ¬isspace c
  head_ne : ∀ w ∈ ws.head?, ∀ c ∈ w.head?, c ≠ '!' ∧ c ≠ '#'
  quotes_le : quotes ws ≤ 1

/-- The words of a line are a word list. -/
theorem isWordList_of_lineStrvec (hs : s.count '"' ≤ 1) (h : lineStrvec s = some ws) :
    IsWordList ws := by
  rw [lineStrvec, List.find?_not_eq_head?_dropWhile] at h
  split_ifs at h with hstart
  obtain rfl := Option.some.inj h
  rw [not_or, not_or] at hstart
  obtain ⟨hblank, hbang, hhash⟩ := hstart
  have hne : s.dropWhile isspace ≠ [] := by simpa using hblank
  have hstop := List.head?_dropWhile_not isspace s
  obtain ⟨c, cp, hcp⟩ := List.exists_cons_of_ne_nil hne
  rw [hcp] at hstop hbang hhash
  have hc : ¬isspace c := by simpa using hstop
  obtain ⟨word, words, hwords⟩ := exists_lineWords_eq_cons hc cp
  rw [← hcp, lineWords_dropWhile] at hwords
  refine ⟨?_, fun w hw => ?_, ?_, ?_⟩
  · rw [hwords]
    exact List.cons_ne_nil _ _
  · exact word_of_mem_lineWords hw
  · rw [hwords]
    simpa using And.intro hbang hhash
  · rwa [quotes_lineWords]

/-- A word list joined with spaces has its words. -/
theorem lineWords_intercalate (hws : ∀ w ∈ ws, w ≠ [] ∧ ∀ c ∈ w, ¬isspace c) :
    lineWords ([' '].intercalate ws) = ws := by
  induction ws with
  | nil => rfl
  | cons w ws ih =>
    obtain ⟨⟨hne, hw⟩, hws⟩ := List.forall_mem_cons.1 hws
    rcases ws with _ | ⟨v, ws⟩
    · rw [List.intercalate_singleton, lineWords_of_not_isspace hw, if_neg hne]
    · rw [Fields.intercalate_cons, lineWords_append_cons (by decide), ih hws,
        lineWords_of_not_isspace hw, if_neg hne, List.singleton_append]

/-- The words make a line again. -/
theorem lineStrvec_intercalate (hws : IsWordList ws) :
    lineStrvec ([' '].intercalate ws) = some ws := by
  obtain ⟨w, ws, rfl⟩ := List.exists_cons_of_ne_nil hws.ne_nil
  obtain ⟨⟨hne, hw⟩, -⟩ := List.forall_mem_cons.1 hws.isWord
  obtain ⟨c, w, rfl⟩ := List.exists_cons_of_ne_nil hne
  have hc : ¬isspace c := hw c List.mem_cons_self
  have hstart := hws.head_ne _ rfl c rfl
  have hhead : ∃ t, [' '].intercalate ((c :: w) :: ws) = c :: t := by
    rcases ws with _ | ⟨v, ws⟩
    · exact ⟨w, List.intercalate_singleton⟩
    · exact ⟨_, Fields.intercalate_cons ' ' (c :: w) v ws⟩
  have hwords := lineWords_intercalate hws.isWord
  obtain ⟨t, ht⟩ := hhead
  rw [lineStrvec, hwords, if_neg]
  rw [ht, List.find?_cons_of_pos (by simpa using hc)]
  simpa using hstart

/-- Both splitters find the words of a line with at most one quote, and split the words of such a
    line, joined with single spaces, again. -/
theorem splitters_agree :
    (∀ s : CString, s.count '"' ≤ 1 →
      cmdMakeStrvec s = lineStrvec s ∧ cmdMakeStrvecOld s = lineStrvec s ∧
        ∀ ws, lineStrvec s = some ws → IsWordList ws) ∧
    ∀ ws, IsWordList ws →
      cmdMakeStrvec ([' '].intercalate ws) = some ws ∧
        cmdMakeStrvecOld ([' '].intercalate ws) = some ws := by
  refine ⟨fun s hs => ⟨cmdMakeStrvec_eq_lineStrvec hs, cmdMakeStrvecOld_eq s, fun ws =>
    isWordList_of_lineStrvec hs⟩, fun ws hws => ?_⟩
  have hquotes : ([' '].intercalate ws).count '"' ≤ 1 := by
    rw [← quotes_lineWords, lineWords_intercalate hws.isWord]
    exact hws.quotes_le
  rw [cmdMakeStrvec_eq_lineStrvec hquotes, cmdMakeStrvecOld_eq, lineStrvec_intercalate hws]
  exact ⟨rfl, rfl⟩

/-- A line with one quote and more white space than needed, and its words. -/
theorem splitters_agree_show :
    cmdMakeStrvec " show\t \"version  now ".toList =
        some ["show".toList, "\"version".toList, "now".toList] ∧
      IsWordList ["show".toList, "\"version".toList, "now".toList] ∧
      cmdMakeStrvec "show \"version now".toList =
        some ["show".toList, "\"version".toList, "now".toList] ∧
      cmdMakeStrvecOld "show \"version now".toList =
        some ["show".toList, "\"version".toList, "now".toList] := by
  have hline : lineStrvec " show\t \"version  now ".toList =
      some ["show".toList, "\"version".toList, "now".toList] := by decide
  obtain ⟨hsplit, hjoin⟩ := splitters_agree
  obtain ⟨heq, -, hwords⟩ := hsplit " show\t \"version  now ".toList (by decide)
  exact ⟨heq.trans hline, hwords _ hline, hjoin _ (hwords _ hline)⟩

end Mksh
