import Mathlib.Algebra.Order.Ring.Nat
import Mksh.Command.Quoted
import Mksh.Lib.Align

/-!
# Pieces of a line

A line that is read in pieces makes as many vectors as there are pieces that are not
blank and not comments. How the quotes of a piece are blanked has nothing to do with
those of the line. But it only takes two quotes at most from a piece, and two from the
line: enough for the vectors of the pieces to be balanced against that of the line
(`balanced_pieces`).
-/

namespace Mksh

open CString

variable {s t p x : CString} {w : List CString} {c : Char} {ps : List CString}

/-! ## Blanking quotes -/

theorem strchr_of_notMem (h : c ∉ s) : strchr s c = none := by
  rw [strchr, List.findIdx?_eq_none_iff]
  intro b hb
  rw [decide_eq_false_iff_not]
  rintro rfl
  exact h hb

/-- Without a quote, nothing is changed. -/
theorem blankQuotes_of_notMem (h : '"' ∉ s) : blankQuotes s = s := by
  rw [blankQuotes, strchr_of_notMem h]

/-- Nor is anything with a single one. -/
theorem blankQuotes_of_single (hs : '"' ∉ s) (ht : '"' ∉ t) :
    blankQuotes (s ++ '"' :: t) = s ++ '"' :: t := by
  have hdrop : (s ++ '"' :: t).drop (s.length + 1) = t := by simp
  rw [blankQuotes, strchr_append_cons hs]
  dsimp only
  rw [hdrop, strchr_of_notMem ht]

/-- A line has no quote, or one, or a first and a second one. -/
theorem quotes_cases (s : CString) : '"' ∉ s ∨
    (∃ pre post, '"' ∉ pre ∧ '"' ∉ post ∧ s = pre ++ '"' :: post) ∨
    ∃ pre mid post, '"' ∉ pre ∧ '"' ∉ mid ∧ s = pre ++ '"' :: (mid ++ '"' :: post) := by
  by_cases hs : '"' ∈ s
  · obtain ⟨pre, t, rfl, hpre⟩ := List.eq_append_cons_of_mem hs
    by_cases ht : '"' ∈ t
    · obtain ⟨mid, post, rfl, hmid⟩ := List.eq_append_cons_of_mem ht
      exact .inr (.inr ⟨pre, mid, post, hpre, hmid, rfl⟩)
    · exact .inr (.inl ⟨pre, t, hpre, ht, rfl⟩)
  · exact .inl hs

/-- A character before the first quote is kept. -/
theorem blankQuotes_cons (hc : c ≠ '"') (s : CString) :
    blankQuotes (c :: s) = c :: blankQuotes s := by
  have hnot {pre : CString} (hpre : '"' ∉ pre) : '"' ∉ c :: pre := by
    rw [List.mem_cons, not_or]
    exact ⟨hc.symm, hpre⟩
  rcases quotes_cases s with hs | ⟨pre, post, hpre, hpost, rfl⟩ | ⟨pre, mid, post, hpre, hmid, rfl⟩
  · rw [blankQuotes_of_notMem hs, blankQuotes_of_notMem (hnot hs)]
  · rw [blankQuotes_of_single hpre hpost, ← List.cons_append,
      blankQuotes_of_single (hnot hpre) hpost]
  · rw [blankQuotes_quoted hpre hmid, ← List.cons_append, blankQuotes_quoted (hnot hpre) hmid]
    rfl

/-- So is a text without quotes. -/
theorem blankQuotes_append_of_notMem (hp : '"' ∉ p) (x : CString) :
    blankQuotes (p ++ x) = p ++ blankQuotes x := by
  induction p with
  | nil => rfl
  | cons c p ih =>
    rw [List.mem_cons, not_or] at hp
    obtain ⟨hc, hp⟩ := hp
    rw [List.cons_append, blankQuotes_cons (Ne.symm hc), ih hp]
    rfl

/-- Only the first two quotes are blanked. -/
theorem blankQuotes_append (hp : 2 ≤ p.count '"') (x : CString) :
    blankQuotes (p ++ x) = blankQuotes p ++ x := by
  rcases quotes_cases p with hs | ⟨pre, post, hpre, hpost, rfl⟩ | ⟨pre, mid, post, hpre, hmid, rfl⟩
  · rw [List.count_eq_zero.2 hs] at hp
    omega
  · rw [List.count_append, List.count_cons_self, List.count_eq_zero.2 hpre,
      List.count_eq_zero.2 hpost] at hp
    omega
  · have htext : pre ++ '"' :: (mid ++ '"' :: post) ++ x =
        pre ++ '"' :: (mid ++ '"' :: (post ++ x)) := by
      simp
    rw [htext, blankQuotes_quoted hpre hmid, blankQuotes_quoted hpre hmid]
    simp

/-- Nothing is changed unless there are two quotes. -/
theorem blankQuotes_of_count (h : s.count '"' ≤ 1) : blankQuotes s = s := by
  rcases quotes_cases s with hs | ⟨pre, post, hpre, hpost, rfl⟩ | ⟨pre, mid, post, hpre, hmid, rfl⟩
  · exact blankQuotes_of_notMem hs
  · exact blankQuotes_of_single hpre hpost
  · rw [List.count_append, List.count_cons_self, List.count_append, List.count_cons_self] at h
    omega

/-- The number of quotes left of `n`. -/
def leftQuotes (n : ℕ) : ℕ := if 2 ≤ n then n - 2 else n

/-- How many quotes are left. -/
theorem count_blankQuotes (s : CString) : (blankQuotes s).count '"' = leftQuotes (s.count '"') := by
  rcases quotes_cases s with hs | ⟨pre, post, hpre, hpost, rfl⟩ | ⟨pre, mid, post, hpre, hmid, rfl⟩
  · rw [blankQuotes_of_notMem hs, List.count_eq_zero.2 hs]
    rfl
  · rw [blankQuotes_of_single hpre hpost, List.count_append, List.count_cons_self,
      List.count_eq_zero.2 hpre, List.count_eq_zero.2 hpost]
    rfl
  · have hdash : '"' ∉ mid.map fun c => if c = ' ' then '-' else c := by
      intro hmem
      obtain ⟨b, hb, heq⟩ := List.mem_map.1 hmem
      split_ifs at heq
      · exact absurd heq (by decide)
      · exact hmid (heq ▸ hb)
    rw [blankQuotes_quoted hpre hmid, List.count_append, List.count_cons_of_ne (by decide),
      List.count_append, List.count_cons_of_ne (by decide), List.count_eq_zero.2 hdash,
      List.count_append, List.count_cons_self, List.count_append, List.count_cons_self,
      List.count_eq_zero.2 hpre, List.count_eq_zero.2 hmid, leftQuotes]
    simp

/-! ## Quotes of a vector -/

/-- The number of quotes in the words of a vector. -/
def quotes (w : List CString) : ℕ := w.flatten.count '"'

/-- Splitting a line keeps its quotes. -/
theorem quotes_lineWords (s : CString) : quotes (lineWords s) = s.count '"' := by
  rw [quotes, flatten_lineWords, List.count_filter (by decide)]

/-- The words of a line have the quotes that are left. -/
theorem quotes_of_cmdMakeStrvec (h : cmdMakeStrvec s = some w) :
    quotes w = leftQuotes (s.count '"') := by
  rw [cmdMakeStrvec_eq] at h
  obtain ⟨c, -, h⟩ := Option.bind_eq_some_iff.1 h
  split_ifs at h
  rw [← Option.some.inj h, quotes_lineWords, count_blankQuotes]

/-- Two quotes are left iff there were four. -/
theorem two_le_quotes_iff (h : cmdMakeStrvec s = some w) : 2 ≤ quotes w ↔ 4 ≤ s.count '"' := by
  rw [quotes_of_cmdMakeStrvec h, leftQuotes]
  split_ifs
  · omega
  · omega

/-- More quotes, as many of them left: there are at most two more. -/
theorem le_two_of_leftQuotes {n r : ℕ} (h : leftQuotes (n + r) = leftQuotes n) : r ≤ 2 := by
  rw [leftQuotes, leftQuotes] at h
  split_ifs at h
  · omega
  · omega
  · omega
  · omega

/-! ## The first character -/

/-- The first character that is not white space. -/
def start (s : CString) : Option Char := ((blankQuotes s).dropWhile isspace).head?

/-- A line is dropped iff it is blank or a comment. -/
theorem cmdMakeStrvec_eq_none_iff :
    cmdMakeStrvec s = none ↔ ∀ c ∈ start s, c = '!' ∨ c = '#' := by
  rw [cmdMakeStrvec_eq, ← start]
  rcases start s with _ | c
  · exact iff_of_true rfl fun _ hc => absurd hc (Option.not_mem_none _)
  · simp [or_iff_not_imp_left]

/-- White space that comes first does not matter. -/
theorem start_append_of_blank (h : start p = none) (x : CString)
    (hx : 2 ≤ p.count '"' → blankQuotes x = x) : start (p ++ x) = start x := by
  have hblank : ∀ c ∈ blankQuotes p, isspace c :=
    List.dropWhile_eq_nil_iff.1 (List.head?_eq_none_iff.1 h)
  by_cases hp : 2 ≤ p.count '"'
  · rw [start, blankQuotes_append hp, List.dropWhile_append_of_pos hblank, start, hx hp]
  · have hquotes : blankQuotes p = p := blankQuotes_of_count (by omega)
    rw [hquotes] at hblank
    have hnot : '"' ∉ p := fun hmem => absurd (hblank _ hmem) (by decide)
    rw [start, blankQuotes_append_of_notMem hnot, List.dropWhile_append_of_pos hblank, start]

/-- A mark of a comment that comes first stays, whatever follows. -/
theorem start_append_of_comment (h : start p = some c) (hc : c = '!' ∨ c = '#') (x : CString) :
    start (p ++ x) = some c := by
  obtain ⟨cs, hcs⟩ := List.head?_eq_some_iff.1 h
  by_cases hp : 2 ≤ p.count '"'
  · rw [start, blankQuotes_append hp, List.dropWhile_append, hcs]
    rfl
  · have hquotes : blankQuotes p = p := blankQuotes_of_count (by omega)
    rw [hquotes] at hcs
    -- The mark stands before any quote.
    have hsplit : p.takeWhile isspace ++ [c] ++ cs = p := by
      rw [List.append_assoc, List.singleton_append, ← hcs, List.takeWhile_append_dropWhile]
    have hspace : ∀ b ∈ p.takeWhile isspace, isspace b :=
      fun b hb => List.all_eq_true.1 List.all_takeWhile b hb
    have hnot : '"' ∉ p.takeWhile isspace ++ [c] := by
      intro hmem
      rcases List.mem_append.1 hmem with hmem | hmem
      · exact absurd (hspace _ hmem) (by decide)
      · rcases hc with rfl | rfl
        · exact absurd (List.mem_singleton.1 hmem) (by decide)
        · exact absurd (List.mem_singleton.1 hmem) (by decide)
    have hmark : ¬ isspace c := by
      rcases hc with rfl | rfl
      · decide
      · decide
    rw [start, ← hsplit, List.append_assoc, blankQuotes_append_of_notMem hnot, List.append_assoc,
      List.dropWhile_append_of_pos hspace, List.singleton_append, List.dropWhile_cons_of_neg hmark]
    rfl

/-! ## Pieces -/

/-- When no piece makes a vector, the line makes none, unless it has many quotes. -/
theorem cmdMakeStrvec_flatten (h : ∀ p ∈ ps, cmdMakeStrvec p = none)
    (hcount : ps.flatten.count '"' ≤ 3) : cmdMakeStrvec ps.flatten = none := by
  induction ps with
  | nil => rfl
  | cons p ps ih =>
    rw [List.flatten_cons, List.count_append] at hcount
    have ih := ih (fun q hq => h q (List.mem_cons_of_mem _ hq)) (by omega)
    have hp := cmdMakeStrvec_eq_none_iff.1 (h p List.mem_cons_self)
    rw [cmdMakeStrvec_eq_none_iff] at ih ⊢
    rw [List.flatten_cons]
    rcases hstart : start p with _ | c
    · rw [start_append_of_blank hstart ps.flatten fun h => blankQuotes_of_count (by omega)]
      exact ih
    · have hc := hp c hstart
      rw [start_append_of_comment hstart hc]
      rintro b ⟨⟩
      exact hc

/-- A piece has no more quotes than the line. -/
theorem count_le_of_mem (hp : p ∈ ps) : p.count '"' ≤ ps.flatten.count '"' := by
  obtain ⟨pre, post, rfl⟩ := List.append_of_mem hp
  rw [List.flatten_append, List.flatten_cons, List.count_append, List.count_append]
  omega

/-- The vectors of the pieces of a line are balanced against its own: big are those with
    two quotes or more. -/
theorem balanced_pieces (h : cmdMakeStrvec ps.flatten = some w) :
    Align.Balanced (2 ≤ quotes ·) (ps.filterMap cmdMakeStrvec, w) := by
  -- Next to a piece that makes the vector of the line, no piece makes a big one.
  have hsame {l₁ l₂ : List CString} {q q' : CString} {w' : List CString}
      (hps : ps = l₁ ++ q :: l₂) (hq : cmdMakeStrvec q = some w) (hq' : q' ∈ l₁ ++ l₂)
      (hqw' : cmdMakeStrvec q' = some w') : ¬ 2 ≤ quotes w' := by
    have hquotes := (quotes_of_cmdMakeStrvec h).symm.trans (quotes_of_cmdMakeStrvec hq)
    have hcount : ps.flatten.count '"' = q.count '"' + (l₁ ++ l₂).flatten.count '"' := by
      rw [hps, List.flatten_append, List.flatten_cons, List.flatten_append, List.count_append,
        List.count_append, List.count_append]
      omega
    rw [hcount] at hquotes
    have hrest := le_two_of_leftQuotes hquotes
    have hle := count_le_of_mem hq'
    rw [two_le_quotes_iff hqw']
    omega
  refine ⟨fun hnil => ?_, fun hsmall w' hw' => ?_, fun {rest} hblock w' hw' => ?_,
    fun {pre rest} hblock hne hbig => ?_⟩
  · by_contra hsmall
    rw [two_le_quotes_iff h] at hsmall
    rw [cmdMakeStrvec_flatten (List.filterMap_eq_nil_iff.1 hnil) (by omega)] at h
    cases h
  · obtain ⟨q, hq, hqw⟩ := List.mem_filterMap.1 hw'
    rw [two_le_quotes_iff h] at hsmall
    rw [two_le_quotes_iff hqw]
    have hle := count_le_of_mem hq
    omega
  · obtain ⟨l₁, q, l₂, hps, -, hqw, rfl⟩ := List.filterMap_eq_cons_iff.1 hblock
    obtain ⟨q', hq', hqw'⟩ := List.mem_filterMap.1 hw'
    exact hsame hps hqw (List.mem_append_right _ hq') hqw'
  · obtain ⟨l₁, l₂', hps, rfl, hl₂⟩ := List.filterMap_eq_append_iff.1 hblock
    obtain ⟨m₁, q, m₂, rfl, -, hqw, -⟩ := List.filterMap_eq_cons_iff.1 hl₂
    obtain ⟨w', hw'⟩ := List.exists_mem_of_ne_nil _ hne
    obtain ⟨q', hq', hqw'⟩ := List.mem_filterMap.1 hw'
    rw [← List.append_assoc] at hps
    refine hsame hps hqw ?_ hqw' (hbig w' hw')
    exact List.mem_append_left _ (List.mem_append_left _ hq')

end Mksh
