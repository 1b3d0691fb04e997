import Mathlib.Data.List.Basic

/-!
# Alignment of blocks

Blocks of elements, each with an element expected of it, that make up the list of
these elements when they are put one after another: is each block the one element
expected of it? It may not be, as a block may be empty, and others make up for it.
They cannot when the elements that an empty block leaves behind are big, and those
that a longer block has to spare are not (`Align.eq_singleton`).
-/

namespace Align

variable {α : Type*}

/-- A block, and the element expected of it. -/
abbrev Block (α : Type*) := List α × α

/-- Big elements are expected of empty blocks, small ones of blocks of small elements
    only, what is in a block after the element expected of it is small, and no element
    expected of a block comes in it right after big ones. -/
structure Balanced (big : α → Prop) (b : Block α) : Prop where
  big_of_nil : b.1 = [] → big b.2
  small : ¬ big b.2 → ∀ a ∈ b.1, ¬ big a
  small_after {rest : List α} (h : b.1 = b.2 :: rest) : ∀ a ∈ rest, ¬ big a
  not_after {pre rest : List α} (h : b.1 = pre ++ b.2 :: rest) (hne : pre ≠ []) :
    ¬ ∀ a ∈ pre, big a

variable {big : α → Prop} {blocks : List (Block α)} {rest : List α}

/-- Small elements to spare are never used up. -/
theorem ne_of_small (h : ∀ b ∈ blocks, Balanced big b) (hne : rest ≠ [])
    (hsmall : ∀ a ∈ rest, ¬ big a) :
    rest ++ (blocks.map Prod.fst).flatten ≠ blocks.map Prod.snd := by
  induction blocks generalizing rest with
  | nil => simpa using hne
  | cons b blocks ih =>
    obtain ⟨a, rest, rfl⟩ := List.exists_cons_of_ne_nil hne
    intro heq
    rw [List.map_cons, List.map_cons, List.flatten_cons, List.cons_append, List.cons.injEq,
      ← List.append_assoc] at heq
    obtain ⟨rfl, heq⟩ := heq
    have hb := h b List.mem_cons_self
    have hexpected := hsmall b.2 List.mem_cons_self
    refine ih (fun b' hb' => h b' (List.mem_cons_of_mem _ hb')) ?_ ?_ heq
    · exact fun hnil => hexpected (hb.big_of_nil (List.append_eq_nil_iff.1 hnil).2)
    · intro a ha
      rcases List.mem_append.1 ha with ha | ha
      · exact hsmall a (List.mem_cons_of_mem _ ha)
      · exact hb.small hexpected a ha

/-- Big elements left behind are never made up for. -/
theorem ne_of_big (h : ∀ b ∈ blocks, Balanced big b) (hne : rest ≠ [])
    (hbig : ∀ a ∈ rest, big a) :
    (blocks.map Prod.fst).flatten ≠ rest ++ blocks.map Prod.snd := by
  induction blocks generalizing rest with
  | nil => exact fun heq => hne (List.append_eq_nil_iff.1 heq.symm).1
  | cons b blocks ih =>
    intro heq
    rw [List.map_cons, List.map_cons, List.flatten_cons] at heq
    have hb := h b List.mem_cons_self
    have ih {rest : List α} (hne : rest ≠ []) (hbig : ∀ a ∈ rest, big a) :=
      ih (fun b' hb' => h b' (List.mem_cons_of_mem _ hb')) hne hbig
    have hexpected (hex : b.1 = [] ∨ ∃ a ∈ b.1, big a) : big b.2 := by
      rcases hex with hnil | ⟨a, ha, hbig⟩
      · exact hb.big_of_nil hnil
      · by_contra hsmall
        exact hb.small hsmall a ha hbig
    -- The block leaves some of the elements behind, or has them all.
    obtain ⟨left, rfl, hblocks⟩ | ⟨spare, hblock, hblocks⟩ := List.append_eq_append_iff.1 heq
    · have hbig' : big b.2 := by
        refine hexpected (or_iff_not_imp_left.2 fun hnil => ?_)
        obtain ⟨a, ha⟩ := List.exists_mem_of_ne_nil b.1 hnil
        exact ⟨a, ha, hbig a (List.mem_append_left _ ha)⟩
      rw [← List.singleton_append, ← List.append_assoc] at hblocks
      refine ih (List.append_ne_nil_of_right_ne_nil _ (List.cons_ne_nil _ _)) ?_ hblocks
      intro a ha
      rcases List.mem_append.1 ha with ha | ha
      · exact hbig a (List.mem_append_right _ ha)
      · exact List.mem_singleton.1 ha ▸ hbig'
    · rcases spare with _ | ⟨a, spare⟩
      · obtain ⟨a, ha⟩ := List.exists_mem_of_ne_nil rest hne
        rw [List.append_nil] at hblock
        have hbig' : big b.2 := hexpected (.inr ⟨a, hblock ▸ ha, hbig a ha⟩)
        refine ih (List.cons_ne_nil b.2 []) ?_ hblocks.symm
        intro a ha
        exact List.mem_singleton.1 ha ▸ hbig'
      · obtain ⟨rfl, -⟩ := List.cons.inj hblocks
        exact hb.not_after hblock hne hbig

/-- Balanced blocks that make up the list of the elements expected of them are these
    elements, one by one. -/
theorem eq_singleton (h : ∀ b ∈ blocks, Balanced big b)
    (heq : (blocks.map Prod.fst).flatten = blocks.map Prod.snd) : ∀ b ∈ blocks, b.1 = [b.2] := by
  induction blocks with
  | nil => exact fun b hb => absurd hb List.not_mem_nil
  | cons b blocks ih =>
    have hb := h b List.mem_cons_self
    have htail : ∀ b' ∈ blocks, Balanced big b' := fun b' hb' => h b' (List.mem_cons_of_mem _ hb')
    rw [List.map_cons, List.map_cons, List.flatten_cons] at heq
    rcases hblock : b.1 with _ | ⟨a, rest⟩
    · -- The element expected is left behind.
      rw [hblock] at heq
      refine absurd heq (ne_of_big htail (List.cons_ne_nil b.2 []) ?_)
      intro a ha
      exact List.mem_singleton.1 ha ▸ hb.big_of_nil hblock
    · rw [hblock, List.cons_append, List.cons.injEq] at heq
      obtain ⟨rfl, heq⟩ := heq
      rcases rest with _ | ⟨a, rest⟩
      · intro b' hb'
        rcases List.mem_cons.1 hb' with rfl | hb'
        · exact hblock
        · exact ih htail heq b' hb'
      · exact absurd heq (ne_of_small htail (List.cons_ne_nil _ _) (hb.small_after hblock))

end Align
