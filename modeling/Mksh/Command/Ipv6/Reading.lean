import Mathlib.Algebra.Ring.Nat
import Mathlib.Data.List.Count
import Mathlib.Data.List.Induction
import Mksh.Command.Match
import Mksh.Lib.Fields

/-!
# Readings of IPv6 addresses

A string is read as groups between its colons, with parts between the dots of each group
(`Reading`). The parts are those that the scanners find: after a dot, any character is taken
for the first one of a part, and no character of a part but the first one is a dot or a
colon. Every string has a reading (`exists_reading`).

What the scanners count, colons, double colons and numbers, they count group by group: the
conditions on the groups that are still to come (`IsRest`) are those on the groups after the
next one, with other counts (`isRest_cons`, `isRest_double`).
-/

namespace Mksh.Ipv6

open CString

/-! ## Readings -/

/-- What is read between dots: a dot or a colon is just another character after a dot. -/
def IsPart (p : CString) : Prop := p ≠ [] ∧ ∀ c ∈ p.tail, c ≠ ':' ∧ c ≠ '.'

/-- What is read between colons. -/
def IsGroup (g : List CString) : Prop :=
  (∀ p ∈ g, IsPart p) ∧ ∀ p ∈ g.head?, p.head? ≠ some ':'

/-- A field: its parts with the dots between them. -/
def groupText (g : List CString) : CString := ['.'].intercalate g

/-- The groups after the first one, each with the colon before it. -/
def restText (gs : List (List CString)) : CString := gs.flatMap fun g => ':' :: groupText g

/-- The dot at the end, if there is one. -/
def dotText (dot : Bool) : CString := if dot then ['.'] else []

/-- A string as the scanners read it: groups between colons, which are empty where no number is
    read, and possibly a dot at the end. -/
structure Reading where
  head : List CString
  rest : List (List CString)
  dot : Bool
  isGroup_head : IsGroup head
  isGroup_rest : ∀ g ∈ rest, IsGroup g
  dot_ne : dot → (head :: rest).getLast (List.cons_ne_nil _ _) ≠ []

/-- The groups are those after a number, with `doubles` double colons and `n` colons so far: there
    is at most one double colon, and at most seven colons, not counting the second one of a double
    colon at the end. -/
structure IsRest (doubles : ℕ) (n : ℤ) (gs : List (List CString)) : Prop where
  doubles_le : doubles + gs.dropLast.count [] ≤ 1
  colons_le : n + gs.length ≤ 7 + if [[], []] <:+ gs then 1 else 0

/-- The groups do not end in a single colon. -/
def EndsWell (gs : List (List CString)) : Prop := gs.getLast? ≠ some [] ∨ [[], []] <:+ gs

/-- The parts of a group are no longer than four characters, with the dot before them. -/
def ShortParts : List CString → Prop
  | [] => True
  | p :: g => p.length ≤ 4 ∧ ∀ q ∈ g, q.length ≤ 3

instance : DecidablePred ShortParts
  | [] => isTrue trivial
  | p :: g => inferInstanceAs (Decidable (p.length ≤ 4 ∧ ∀ q ∈ g, q.length ≤ 3))

/-- The groups, but for the one before a dot at the end. -/
def closedGroups (dot : Bool) (gs : List (List CString)) : List (List CString) :=
  if dot then gs.dropLast else gs

namespace Reading

variable (r : Reading)

/-- The text that is read so. -/
def text : CString := groupText r.head ++ restText r.rest ++ dotText r.dot

/-- A colon at the beginning is one of two, or the only character, and is not counted. -/
def IsShape : Prop :=
  (r.head = [] → ∀ g ∈ r.rest.head?, g = []) ∧
    IsRest 0 (if r.head = [] then -1 else 0) r.rest

/-- The string is not empty, and ends neither in a dot nor in a single colon. -/
def IsComplete : Prop :=
  r.dot = false ∧ (r.head = [] → r.rest ≠ []) ∧ EndsWell r.rest

/-- The parts, and the double colon. -/
def numbers : ℕ := ((r.head :: r.rest).map List.length).sum + r.rest.dropLast.count []

end Reading

/-! ## Groups after a number -/

variable {doubles : ℕ} {n : ℤ} {g h : List CString} {gs : List (List CString)}

/-- A group that is not empty does not change how the text ends. -/
theorem suffix_cons_iff (hg : g ≠ []) : [[], []] <:+ g :: gs ↔ [[], []] <:+ gs := by
  rw [List.suffix_cons_iff, or_iff_right]
  intro heq
  exact hg (List.cons.inj heq).1.symm

/-- Nor does an empty one before one that is not. -/
theorem suffix_nil_cons_iff (hh : h ≠ []) : [[], []] <:+ [] :: h :: gs ↔ [[], []] <:+ gs := by
  rw [List.suffix_cons_iff, suffix_cons_iff hh, or_iff_right]
  intro heq
  exact hh (List.cons.inj (List.cons.inj heq).2).1.symm

theorem count_dropLast_cons (hg : g ≠ []) (gs : List (List CString)) :
    (g :: gs).dropLast.count [] = gs.dropLast.count [] := by
  rcases gs with _ | ⟨h, gs⟩
  · rfl
  · rw [List.dropLast_cons_cons, List.count_cons_of_ne hg]

theorem count_dropLast_nil_cons (hh : h ≠ []) (gs : List (List CString)) :
    ([] :: h :: gs).dropLast.count [] = 1 + gs.dropLast.count [] := by
  rw [List.dropLast_cons_cons, List.count_cons_self, count_dropLast_cons hh, add_comm]

/-- At most seven colons are behind. -/
theorem IsRest.le (hrest : IsRest doubles n gs) : n ≤ 7 := by
  have hle := hrest.colons_le
  split_ifs at hle with hsuffix
  · have hlen := hsuffix.length_le
    rw [List.length_cons, List.length_singleton] at hlen
    omega
  · omega

/-- Before a colon, at most six. -/
theorem IsRest.lt (hrest : IsRest doubles n (g :: gs)) : n < 7 := by
  have hle := hrest.colons_le
  rw [List.length_cons] at hle
  split_ifs at hle with hsuffix
  · have hlen := hsuffix.length_le
    simp only [List.length_cons, List.length_nil] at hlen
    omega
  · omega

/-- With no groups left, only the counts are checked. -/
theorem isRest_nil : IsRest doubles n [] ↔ doubles ≤ 1 ∧ n ≤ 7 := by
  have hnot : ¬[[], []] <:+ ([] : List (List CString)) := by simp
  constructor
  · intro h
    exact ⟨h.doubles_le, h.le⟩
  · rintro ⟨hd, hn⟩
    exact ⟨hd, by simpa [hnot] using hn⟩

/-- A number after a colon. -/
theorem isRest_cons (hg : g ≠ []) : IsRest doubles n (g :: gs) ↔ IsRest doubles (n + 1) gs := by
  have hcount := count_dropLast_cons hg gs
  have hlen : n + ↑(g :: gs).length = n + 1 + gs.length := by
    rw [List.length_cons]
    omega
  constructor
  · rintro ⟨hd, hn⟩
    rw [hcount] at hd
    rw [hlen] at hn
    simp only [suffix_cons_iff hg] at hn
    exact ⟨hd, hn⟩
  · rintro ⟨hd, hn⟩
    refine ⟨hcount ▸ hd, ?_⟩
    rw [hlen]
    simpa only [suffix_cons_iff hg] using hn

/-- A single colon at the end. -/
theorem isRest_singleton : IsRest doubles n [[]] ↔ doubles ≤ 1 ∧ n + 1 ≤ 7 := by
  have hnot : ¬[[], []] <:+ [([] : List CString)] := by decide
  constructor
  · rintro ⟨hd, hn⟩
    exact ⟨by simpa using hd, by simpa [hnot] using hn⟩
  · rintro ⟨hd, hn⟩
    exact ⟨by simpa using hd, by simpa [hnot] using hn⟩

/-- A double colon at the end. -/
theorem isRest_double : IsRest doubles n [[], []] ↔ doubles = 0 ∧ n + 1 ≤ 7 := by
  constructor
  · rintro ⟨hd, hn⟩
    simp at hd hn
    exact ⟨by omega, by omega⟩
  · rintro ⟨rfl, hn⟩
    refine ⟨by simp, ?_⟩
    simp
    omega

/-- A number after a double colon. -/
theorem isRest_nil_cons (hh : h ≠ []) :
    IsRest doubles n ([] :: h :: gs) ↔ doubles = 0 ∧ IsRest 1 (n + 2) gs := by
  have hcount := count_dropLast_nil_cons hh gs
  have hlen : n + ↑(([] : List CString) :: h :: gs).length = n + 2 + gs.length := by
    rw [List.length_cons, List.length_cons]
    omega
  constructor
  · rintro ⟨hd, hn⟩
    rw [hcount] at hd
    rw [hlen] at hn
    simp only [suffix_nil_cons_iff hh] at hn
    exact ⟨by omega, by omega, hn⟩
  · rintro ⟨rfl, hd, hn⟩
    refine ⟨by omega, ?_⟩
    rw [hlen]
    simpa only [suffix_nil_cons_iff hh] using hn

/-- A third colon. -/
theorem not_isRest (hgs : gs ≠ []) : ¬IsRest doubles n ([] :: [] :: gs) := by
  intro hrest
  have hd := hrest.doubles_le
  obtain ⟨k, gs, rfl⟩ := List.exists_cons_of_ne_nil hgs
  rw [List.dropLast_cons_cons, List.dropLast_cons_cons, List.count_cons_self,
    List.count_cons_self] at hd
  omega

/-! ## Every string has a reading -/

theorem isGroup_nil : IsGroup [] := ⟨List.forall_mem_nil _, by simp⟩

/-- One more character of a number. -/
theorem IsGroup.append_last {ps : List CString} {p : CString} {c : Char}
    (hg : IsGroup (ps ++ [p])) (hdot : c ≠ '.') (hcolon : c ≠ ':') :
    IsGroup (ps ++ [p ++ [c]]) := by
  obtain ⟨hparts, hhead⟩ := hg
  obtain ⟨hps, hp⟩ := List.forall_mem_append.1 hparts
  obtain ⟨hne, htail⟩ := List.forall_mem_singleton.1 hp
  refine ⟨List.forall_mem_append.2 ⟨hps, List.forall_mem_singleton.2 ⟨by simp, ?_⟩⟩, ?_⟩
  · rw [List.tail_append_of_ne_nil hne]
    exact List.forall_mem_append.2 ⟨htail, List.forall_mem_singleton.2 ⟨hcolon, hdot⟩⟩
  · rcases ps with _ | ⟨q, ps⟩
    · obtain ⟨d, p, rfl⟩ := List.exists_cons_of_ne_nil hne
      simpa using hhead
    · exact hhead

theorem groupText_nil : groupText [] = [] := rfl

theorem restText_cons (g : List CString) (gs : List (List CString)) :
    restText (g :: gs) = ':' :: (groupText g ++ restText gs) := rfl

/-- The groups before the last one, each with the colon after it. -/
def beforeText (gs : List (List CString)) : CString := gs.flatMap fun g => groupText g ++ [':']

/-- The groups before the last one, each with its colon. -/
theorem beforeText_concat (gs : List (List CString)) (g : List CString) :
    beforeText (gs ++ [g]) = beforeText gs ++ groupText g ++ [':'] := by
  rw [beforeText, beforeText, List.flatMap_append, List.flatMap_singleton, List.append_assoc]

/-- Groups and a last one make a reading. -/
theorem exists_reading_of_groups (hgs : ∀ g ∈ gs, IsGroup g) (hg : IsGroup g) {dot : Bool}
    (hdot : dot → g ≠ []) :
    ∃ r : Reading, r.text = beforeText gs ++ groupText g ++ dotText dot := by
  obtain ⟨head, rest, heq, htext⟩ : ∃ head rest, head :: rest = gs ++ [g] ∧
      groupText head ++ restText rest = beforeText gs ++ groupText g := by
    clear hgs
    induction gs with
    | nil => exact ⟨g, [], rfl, List.append_nil _⟩
    | cons f gs ih =>
      obtain ⟨head, rest, heq, htext⟩ := ih
      refine ⟨f, head :: rest, by rw [heq]; rfl, ?_⟩
      have hcons : beforeText (f :: gs) = groupText f ++ [':'] ++ beforeText gs := rfl
      rw [restText_cons, htext, hcons]
      simp only [List.append_assoc, List.cons_append, List.nil_append]
  have hall : ∀ f ∈ head :: rest, IsGroup f := by
    rw [heq]
    exact List.forall_mem_append.2 ⟨hgs, List.forall_mem_singleton.2 hg⟩
  obtain ⟨hhead, hrest⟩ := List.forall_mem_cons.1 hall
  refine ⟨⟨head, rest, dot, hhead, hrest, fun h => ?_⟩, ?_⟩
  · simpa only [heq, List.getLast_append_singleton] using hdot h
  · rw [Reading.text, htext]

/-- Every text has a reading. -/
theorem exists_reading (a : CString) : ∃ r : Reading, r.text = a := by
  suffices h : ∃ gs g, ∃ dot : Bool, (∀ f ∈ gs, IsGroup f) ∧ IsGroup g ∧ (dot → g ≠ []) ∧
      beforeText gs ++ groupText g ++ dotText dot = a by
    obtain ⟨gs, g, dot, hgs, hg, hdot, rfl⟩ := h
    exact exists_reading_of_groups hgs hg hdot
  -- What has been read is known from the last group, and from whether a dot follows it.
  induction a using List.reverseRecOn with
  | nil => exact ⟨[], [], false, List.forall_mem_nil _, isGroup_nil, by simp, rfl⟩
  | append_singleton a c ih =>
    obtain ⟨gs, g, dot, hgs, hg, hdot, rfl⟩ := ih
    rcases dot with _ | _
    · by_cases hcolon : c = ':'
      · -- The next group starts after the colon.
        refine ⟨gs ++ [g], [], false, ?_, isGroup_nil, by simp, ?_⟩
        · exact List.forall_mem_append.2 ⟨hgs, List.forall_mem_singleton.2 hg⟩
        · rw [beforeText_concat, hcolon]
          simp [dotText, groupText_nil]
      · rcases g.eq_nil_or_concat' with rfl | ⟨ps, p, rfl⟩
        · -- The first character of a group, which may be a dot.
          refine ⟨gs, [[c]], false, hgs, ⟨?_, by simpa using hcolon⟩, by simp, ?_⟩
          · exact List.forall_mem_singleton.2 ⟨List.cons_ne_nil c [], List.forall_mem_nil _⟩
          · simp [dotText, groupText]
        · by_cases hdot : c = '.'
          · refine ⟨gs, ps ++ [p], true, hgs, hg, by simp, ?_⟩
            simp [dotText, hdot]
          · -- The last part gets one more character.
            refine ⟨gs, ps ++ [p ++ [c]], false, hgs, ?_, by simp, ?_⟩
            · exact hg.append_last hdot hcolon
            · rw [groupText, groupText, Fields.intercalate_append_last]
              simp [dotText]
    · -- The dot is one between two parts.
      have hne := hdot rfl
      refine ⟨gs, g ++ [[c]], false, hgs, ⟨?_, ?_⟩, by simp, ?_⟩
      · exact List.forall_mem_append.2 ⟨hg.1,
          List.forall_mem_singleton.2 ⟨List.cons_ne_nil c [], List.forall_mem_nil _⟩⟩
      · rw [List.head?_append_of_ne_nil _ hne]
        exact hg.2
      · rw [groupText, groupText, Fields.intercalate_concat hne]
        simp [dotText]

end Mksh.Ipv6
