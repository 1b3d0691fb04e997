import Mksh.Lib.CString

/-!
# Words of a line

How `cmdMakeStrvec` breaks a line into words: at white space, the first quoted
part of the line counting as one word, with its spaces turned into dashes. A
line without words, and a comment, have no vector.

The loop stores a word in each turn, without testing whether it has any
characters: it has some, since the white space before it has been skipped. The
two loops in it are `strvecLoop` and `strvecSkip`.
-/

namespace Mksh

open CString

/-- The first two double quotes blanked, and the spaces between them turned
    into dashes. -/
def blankQuotes (string : CString) : CString :=
  match strchr string '"' with
  | none => string
  | some tstart =>
    match strchr (string.drop (tstart + 1)) '"' with
    | none => string
    | some n =>
      string.take tstart ++ ' ' ::
        ((string.drop (tstart + 1)).take n).map (fun c => if c = ' ' then '-' else c) ++
        ' ' :: string.drop (tstart + 1 + n + 1)

/-- What ends a word. -/
def separates (c : Char) : Bool := isspace c || c = '\r' || c = '\n'

/-- Both line ends are white space. -/
@[simp]
theorem separates_eq : separates = isspace := by
  funext c
  by_cases hr : c = '\r'
  · subst hr
    rfl
  · by_cases hn : c = '\n'
    · subst hn
      rfl
    · simp [separates, hr, hn]

mutual

/-- The loop over the line, from `cp` on, in a word: `token` holds the characters since `start`.
    At the end of the word, it is stored, without testing whether it has any characters. -/
def strvecLoop (token : CString) : CString → List CString
  | [] => [token]
  | c :: cp => if separates c then token :: strvecSkip cp else strvecLoop (token ++ [c]) cp

/-- The loop over the line, from `cp` on, in the white space after a word. -/
def strvecSkip : CString → List CString
  | [] => []
  | c :: cp => if separates c then strvecSkip cp else strvecLoop [c] cp

end

/-- Breaking up string into each command piece; `none` for a `NULL` vector. -/
def cmdMakeStrvec (string : CString) : Option (List CString) :=
  let cp := (blankQuotes string).dropWhile isspace
  match cp with
  | [] => none
  | c :: _ => if c = '!' ∨ c = '#' then none else some (strvecLoop [] cp)

/-- The comments of a configuration file. -/
theorem cmdMakeStrvec_comment {string : CString} (h : string.head? = some '!') :
    cmdMakeStrvec string = none := by
  obtain ⟨cs, rfl⟩ : ∃ cs, string = '!' :: cs := by
    rcases string with _ | ⟨c, cs⟩
    · cases h
    · exact ⟨cs, congrArg (· :: cs) (Option.some.inj h)⟩
  -- The first character is no quote, and is kept.
  have hq : ∃ cs', blankQuotes ('!' :: cs) = '!' :: cs' := by
    have hchr : strchr ('!' :: cs) '"' = (strchr cs '"').map (· + 1) := by
      simp [strchr, List.findIdx?_cons]
    rw [blankQuotes, hchr]
    rcases strchr cs '"' with _ | n
    · exact ⟨cs, rfl⟩
    · rw [Option.map_some]
      dsimp only
      split
      · exact ⟨cs, rfl⟩
      · exact ⟨_, rfl⟩
  obtain ⟨cs', hq⟩ := hq
  rw [cmdMakeStrvec, hq]
  rfl

end Mksh
