import Mathlib.Data.List.Infix

/-!
# Common prefixes

To find the longest common prefix of some lists (`IsLongestCommonPrefix`), it is enough to
compare each of them with the next one: a start of `s` that `t` also has is the same start of
`t`, so that the lists after `t` may be compared with `t` (`isCommonPrefix_cons_iff`).
-/

namespace Prefixes

open List

variable {α : Type*} {l : List (List α)} {q s t : List α} {n : ℕ}

/-- All the lists start with `q`. -/
def IsCommonPrefix (l : List (List α)) (q : List α) : Prop := ∀ s ∈ l, q <+: s

/-- A common prefix of which all the others are prefixes. -/
structure IsLongestCommonPrefix (l : List (List α)) (q : List α) : Prop where
  isCommonPrefix : IsCommonPrefix l q
  longest : ∀ q', IsCommonPrefix l q' → q' <+: q

theorem isCommonPrefix_nil : IsCommonPrefix [] q := fun _ h => absurd h not_mem_nil

/-- To compare the other lists with `s`, it is enough to compare them with the next one. -/
theorem isCommonPrefix_cons_iff (hn : n ≤ s.length) :
    IsCommonPrefix (t :: l) (s.take n) ↔ s.take n <+: t ∧ IsCommonPrefix l (t.take n) := by
  rw [IsCommonPrefix, forall_mem_cons]
  refine and_congr_right fun h => ?_
  have htake : s.take n = t.take n := by
    rw [prefix_iff_eq_take, length_take_of_le hn] at h
    exact h
  rw [htake, IsCommonPrefix]

/-- The first `n` elements of the first list, when it has no start that is longer, and common. -/
theorem isLongestCommonPrefix_take
    (h : ∀ k, k ≤ n ↔ k ≤ s.length ∧ IsCommonPrefix l (s.take k)) :
    IsLongestCommonPrefix (s :: l) (s.take n) where
  isCommonPrefix := by
    have hs : s.take n <+: s := take_prefix n s
    exact forall_mem_cons.2 ⟨hs, ((h n).1 le_rfl).2⟩
  longest q hq := by
    obtain ⟨hs, hl⟩ := forall_mem_cons.1 hq
    have htake : q = s.take q.length := prefix_iff_eq_take.1 hs
    have hle : q.length ≤ n := (h q.length).2 ⟨hs.length_le, htake ▸ hl⟩
    rw [htake]
    exact take_prefix_take_left hle

end Prefixes
