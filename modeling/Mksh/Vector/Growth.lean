import Mksh.Lib.Loop
import Mksh.Vector.Memory

/-!
# Growing and copying large vectors

The number of slots of a vector is an `unsigned int`, and so is the size that `vector_copy`
computes. `vector_ensure` calls itself at its end, so that it is a loop: here it is with all that
it clears (`Growth`). It does what it is to do as long as some number of doublings gets beyond
the index before it wraps around (`exists_ensured_iff`), and the copy has all the slots as long as
they are fewer than `2 ^ 29` (`copied_iff`).
-/

namespace Mksh

open CVector Loop Process

variable {α : Type}

/-! ## Growing -/

/-- The slots that `memset` clears in a block of slots. -/
structure Fill where
  slots : ℕ
  first : ℕ
  count : ℕ
  deriving DecidableEq

/-- All that is cleared is in the block. -/
def Fill.Inside (f : Fill) : Prop := f.first + f.count ≤ f.slots

/-- A vector that grows, and what has been cleared so far. -/
structure Growth (α : Type) where
  vector : CVector α
  fills : List Fill

/-- There is no slot `num` yet. -/
def Short (num : ℕ) (v : CVector α) : Prop := v.alloced ≤ num

namespace Growth

/-- The block is reallocated with twice as many slots, and as many as there were are cleared
    after these. -/
def turn (g : Growth α) : Growth α :=
  ⟨g.vector.double, ⟨g.vector.alloced * 2 % 2 ^ 32, g.vector.alloced, g.vector.alloced⟩ :: g.fills⟩

end Growth

open Growth

/-- From a vector, `vector_ensure` returns with another one. -/
abbrev VectorEnsure (v : CVector α) (num : ℕ) : Growth α → Prop :=
  Exits (fun g => Short num g.vector) turn ⟨v, []⟩

variable {v v' : CVector α} {g g' : Growth α} {num k fuel : ℕ} {f : Fill}

/-- `vectorEnsure` returns what the loop exits with. -/
theorem exits_of_vectorEnsureLoop (h : vectorEnsureLoop fuel v num = some v') :
    Exits (Short num) double v v' := by
  induction fuel generalizing v with
  | zero => cases h
  | succ fuel ih =>
    rw [vectorEnsureLoop] at h
    split_ifs at h with hlt hle
    · obtain rfl := Option.some.inj h
      exact .done (not_le.2 hlt)
    · exact .turn (not_lt.1 hlt) (ih h)
    · obtain rfl := Option.some.inj h
      exact .turn (not_lt.1 hlt) (.done hle)

/-- As many turns as it takes to get to a number of slots that is `0` are enough. -/
theorem vectorEnsureLoop_of_exits (hzero : v.alloced * 2 ^ k % 2 ^ 32 = 0)
    (hlt : v.alloced < 2 ^ 32) (h : Exits (Short num) double v v') :
    vectorEnsureLoop (k + 1) v num = some v' := by
  induction k generalizing v with
  | zero =>
    -- An empty vector is doubled forever.
    have hnone : v.alloced = 0 := by omega
    refine absurd h (not_exits (I := fun v : CVector α => v.alloced = 0) (fun w hw => ?_) hnone)
    rw [Short, alloced_double, hw]
    exact ⟨Nat.zero_le num, rfl⟩
  | succ k ih =>
    rw [vectorEnsureLoop]
    split_ifs with hslot hle
    · have hnot : ¬Short num v := not_le.2 hslot
      rw [(exits_iff_of_not hnot).1 h]
    · have hshort : Short num v := not_lt.1 hslot
      refine ih ?_ ?_ ((exits_iff_of_cond hshort).1 h)
      · rw [alloced_double, Nat.mod_mul_mod, mul_assoc, ← pow_succ']
        exact hzero
      · rw [alloced_double]
        exact Nat.mod_lt _ (by decide)
    · have hshort : Short num v := not_lt.1 hslot
      have hexits := (exits_iff_of_cond hshort).1 h
      have hnot : ¬Short num v.double := hle
      rw [(exits_iff_of_not hnot).1 hexits]

/-- `vectorEnsure` is the loop, and ends whenever the loop does. -/
theorem vectorEnsure_eq_some_iff (hlt : v.alloced < 2 ^ 32) : vectorEnsure v num = some v' ↔
    ∃ g, VectorEnsure v num g ∧ g.vector = v' := by
  have hmap : Exits (Short num) double v v' ↔ ∃ g, VectorEnsure v num g ∧ g.vector = v' :=
    exits_iff_of_map (f := Growth.vector) (a := ⟨v, []⟩) (fun _ => Iff.rfl) fun _ => rfl
  rw [← hmap]
  exact ⟨exits_of_vectorEnsureLoop, vectorEnsureLoop_of_exits (Nat.mul_mod_left _ _) hlt⟩

/-- Growing a vector comes to an end, with a slot `num`. All that has been cleared is in its
    block, and the slots there were are as before. -/
structure Ensured (v : CVector α) (num : ℕ) (g : Growth α) : Prop where
  exits : VectorEnsure v num g
  lt : num < g.vector.alloced
  inside : ∀ f ∈ g.fills, f.Inside
  slot_eq : ∀ i < v.alloced, g.vector.slot i = v.slot i

/-- What has been cleared stays so. -/
theorem mem_fills (h : Exits (fun g => Short num g.vector) turn g g') (hf : f ∈ g.fills) :
    f ∈ g'.fills :=
  h.preserves (I := fun g => f ∈ g.fills) (fun _ hx _ => List.mem_cons_of_mem _ hx) hf

/-- As long as all that is cleared is in its block, the number of slots does not wrap around. -/
theorem alloced_of_inside (h : Exits (fun g => Short num g.vector) turn g g')
    (hinside : ∀ f ∈ g'.fills, f.Inside) (hlt : g.vector.alloced < 2 ^ 32) :
    ∃ k, g'.vector.alloced = g.vector.alloced * 2 ^ k ∧ g.vector.alloced * 2 ^ k < 2 ^ 32 := by
  induction h with
  | done _ => exact ⟨0, (mul_one _).symm, (mul_one _).trans_lt hlt⟩
  | @turn g _ _ hexits ih =>
    have hfill := hinside _ (mem_fills hexits List.mem_cons_self)
    change g.vector.alloced + g.vector.alloced ≤ g.vector.alloced * 2 % 2 ^ 32 at hfill
    have hdouble : g.turn.vector.alloced = g.vector.alloced * 2 % 2 ^ 32 := alloced_double _
    have hnowrap : g.turn.vector.alloced = g.vector.alloced * 2 := by omega
    obtain ⟨k, hk, hlt'⟩ := ih hinside (by omega)
    rw [hnowrap, mul_assoc, ← pow_succ'] at hk hlt'
    exact ⟨k + 1, hk, hlt'⟩

/-- Growing ends if some number of doublings gets beyond the index before it wraps around. -/
theorem exists_exits_of_lt (hnum : num < g.vector.alloced * 2 ^ k)
    (hlt : g.vector.alloced * 2 ^ k < 2 ^ 32) :
    ∃ g', Exits (fun g => Short num g.vector) turn g g' ∧
      g'.vector.alloced ≤ g.vector.alloced * 2 ^ k ∧
      (∀ f ∈ g'.fills, f ∈ g.fills ∨ f.Inside) ∧ Grown g.vector g'.vector := by
  induction k generalizing g with
  | zero =>
    rw [pow_zero, mul_one] at hnum ⊢
    exact ⟨g, .done (not_le.2 hnum), le_rfl, fun f hf => .inl hf, .refl _⟩
  | succ k ih =>
    by_cases hshort : Short num g.vector
    · have hle : g.vector.alloced * 2 ≤ g.vector.alloced * 2 ^ (k + 1) :=
        Nat.mul_le_mul_left _ (Nat.le_self_pow k.succ_ne_zero 2)
      -- No doubling wraps before the number of slots is enough.
      have hwrap : g.vector.alloced * 2 < 2 ^ 32 := hle.trans_lt hlt
      have hdouble : g.turn.vector.alloced = g.vector.alloced * 2 :=
        (alloced_double _).trans (Nat.mod_eq_of_lt hwrap)
      have hpow : g.turn.vector.alloced * 2 ^ k = g.vector.alloced * 2 ^ (k + 1) := by
        rw [hdouble, mul_assoc, ← pow_succ']
      rw [← hpow] at hnum hlt ⊢
      obtain ⟨g', hexits, hbound, hfills, hgrown⟩ := ih hnum hlt
      refine ⟨g', .turn hshort hexits, hbound, fun f hf => ?_, ?_⟩
      · rcases hfills f hf with hf | hf
        · -- The slots that are filled are the upper half of the new array.
          rcases List.mem_cons.1 hf with rfl | hf
          · refine .inr ?_
            change g.vector.alloced + g.vector.alloced ≤ g.vector.alloced * 2 % 2 ^ 32
            rw [Nat.mod_eq_of_lt hwrap, mul_two]
          · exact .inl hf
        · exact .inr hf
      · exact (grown_double hwrap).trans hgrown
    · have hone : g.vector.alloced ≤ g.vector.alloced * 2 ^ (k + 1) :=
        Nat.le_mul_of_pos_right _ (Nat.two_pow_pos _)
      exact ⟨g, .done hshort, hone, fun f hf => .inl hf, .refl _⟩

theorem exists_ensured (hnum : num < v.alloced * 2 ^ k) (hlt : v.alloced * 2 ^ k < 2 ^ 32) :
    ∃ g, Ensured v num g ∧ g.vector.alloced ≤ v.alloced * 2 ^ k := by
  obtain ⟨g, hexits, hle, hfills, hgrown⟩ := exists_exits_of_lt (g := ⟨v, []⟩) hnum hlt
  refine ⟨g, ⟨hexits, not_le.1 hexits.not_cond, fun f hf => ?_, fun i _ => hgrown.slot_eq i⟩, hle⟩
  exact (hfills f hf).resolve_left List.not_mem_nil

theorem exists_ensured_iff (hlt : v.alloced < 2 ^ 32) : (∃ g, Ensured v num g) ↔
    ∃ k, num < v.alloced * 2 ^ k ∧ v.alloced * 2 ^ k < 2 ^ 32 := by
  constructor
  · rintro ⟨g, hg⟩
    obtain ⟨k, hk, hlt'⟩ := alloced_of_inside hg.exits hg.inside hlt
    exact ⟨k, hk ▸ hg.lt, hlt'⟩
  · rintro ⟨k, hnum, hlt'⟩
    obtain ⟨g, hg, -⟩ := exists_ensured hnum hlt'
    exact ⟨g, hg⟩

/-! ## Copying -/

/-- The size of the block of a copy, an `unsigned int`. -/
def copySize (v : CVector α) : ℕ := 8 * v.alloced % 2 ^ 32

/-- The size is that of all the slots, and wherever the vector is, it is copied with all of
    them. -/
structure Copied (v : CVector α) : Prop where
  size_eq : copySize v = 8 * v.alloced
  holds (s : VectorMemory α) (a : ℕ) : s.Holds a v →
    ∃ new s', (VectorMemory.vectorCopy a).result s = some (new, s') ∧ s'.Holds new v

/-- What the copy of a vector has in its block. -/
theorem vectorCopy_eq {s : VectorMemory α} {a : ℕ} (h : s.Holds a v) :
    Achieves (VectorMemory.vectorCopy a) (fun new s' => new = s.fresh ∧
      s' = s.calloc v.max v.alloced (v.index.take (copySize v / 8))) s := by
  obtain ⟨r, -, hat⟩ := h.vectorAt
  rw [VectorMemory.vectorCopy, achieves_bind]
  refine hat.mono ?_
  rintro _ _ ⟨rfl, rfl⟩
  simp only [achieves_bind, achieves_get, achieves_modify, achieves_pure, copySize, and_self]

theorem copied_iff (hlt : v.alloced < 2 ^ 32) : Copied v ↔ v.alloced < 2 ^ 29 := by
  constructor
  · intro h
    have hsize := h.size_eq
    rw [copySize] at hsize
    omega
  · intro h
    have hsize : copySize v = 8 * v.alloced := Nat.mod_eq_of_lt (by omega)
    refine ⟨hsize, fun s a hholds => ?_⟩
    obtain ⟨new, s', hr, rfl, rfl⟩ := vectorCopy_eq hholds
    have hall : v.index.take (copySize v / 8) = v.index := by
      rw [hsize, Nat.mul_div_cancel_left _ (by decide)]
      exact List.take_length
    rw [hall] at hr
    exact ⟨_, _, hr, _, Function.update_self .., rfl, rfl, Function.update_self ..⟩

/-- A vector grows up to an index if doubling the number of its slots gets beyond the index before
    it wraps around, and is then copied with all its slots if it gets there below `2 ^ 29`. -/
theorem vectorEnsure_vectorCopy_iff (hlt : v.alloced < 2 ^ 32) :
    ((∃ g, Ensured v num g) ↔ ∃ k, num < v.alloced * 2 ^ k ∧ v.alloced * 2 ^ k < 2 ^ 32) ∧
    ((∃ g, Ensured v num g ∧ Copied g.vector) ↔
      ∃ k, num < v.alloced * 2 ^ k ∧ v.alloced * 2 ^ k < 2 ^ 29) := by
  refine ⟨exists_ensured_iff hlt, ?_, ?_⟩
  · rintro ⟨g, hg, hcopied⟩
    obtain ⟨k, hk, hlt'⟩ := alloced_of_inside hg.exits hg.inside hlt
    change g.vector.alloced = v.alloced * 2 ^ k at hk
    refine ⟨k, hk ▸ hg.lt, ?_⟩
    rw [← hk] at hlt' ⊢
    exact (copied_iff hlt').1 hcopied
  · rintro ⟨k, hnum, hlt'⟩
    obtain ⟨g, hg, hle⟩ := exists_ensured hnum (by omega)
    exact ⟨g, hg, (copied_iff (by omega)).2 (by omega)⟩

theorem alloced_vectorInit : (vectorInit 1 : CVector α).alloced = 1 := rfl

/-- Growing from one slot for the index `5`, and copying the vector. -/
theorem vectorEnsure_vectorCopy_iff_five :
    ∃ g, Ensured (vectorInit 1 : CVector ℕ) 5 g ∧ Copied g.vector := by
  have hlt : (vectorInit 1 : CVector ℕ).alloced < 2 ^ 32 := by decide
  refine (vectorEnsure_vectorCopy_iff hlt).2.2 ⟨3, ?_, ?_⟩
  · rw [alloced_vectorInit]
    decide
  · rw [alloced_vectorInit]
    decide

/-- From one slot, growing for the index `-1`, as an `unsigned int`, does not end. For the index
    `2 ^ 28` it does, but then the size of a copy is `0`. -/
theorem vectorEnsure_wraps : (¬∃ g, Ensured (vectorInit 1 : CVector ℕ) (2 ^ 32 - 1) g) ∧
    (¬∃ g, VectorEnsure (vectorInit 1 : CVector ℕ) (2 ^ 32 - 1) g) ∧
    ∃ g, Ensured (vectorInit 1 : CVector ℕ) (2 ^ 28) g ∧ g.vector.alloced = 2 ^ 29 ∧
      copySize g.vector = 0 := by
  have hlt : (vectorInit 1 : CVector ℕ).alloced < 2 ^ 32 := by decide
  refine ⟨fun h => ?_, ?_, ?_⟩
  · obtain ⟨k, hk, hk'⟩ := (exists_ensured_iff hlt).1 h
    omega
  · rintro ⟨g, hg⟩
    have hv := (vectorEnsure_eq_some_iff hlt).2 ⟨g, hg, rfl⟩
    obtain ⟨-, hwf, hnum⟩ := vectorEnsure_eq_some wf_init hv
    obtain ⟨k, hk, hpow⟩ := hwf.alloced_eq
    have hle : 2 ^ k ≤ 2 ^ 31 := Nat.pow_le_pow_right Nat.two_pos hk
    omega
  · have hbeyond : 2 ^ 28 < (vectorInit 1 : CVector ℕ).alloced * 2 ^ 29 := by
      rw [alloced_vectorInit]
      decide
    have hbelow : (vectorInit 1 : CVector ℕ).alloced * 2 ^ 29 < 2 ^ 32 := by
      rw [alloced_vectorInit]
      decide
    obtain ⟨g, hg, hle⟩ := exists_ensured hbeyond hbelow
    obtain ⟨k, hk, -⟩ := alloced_of_inside hg.exits hg.inside hlt
    change g.vector.alloced = 1 * 2 ^ k at hk
    have hnum := hg.lt
    rw [alloced_vectorInit, one_mul, hk, one_mul] at hle
    rw [hk, one_mul] at hnum
    have hle' := (Nat.pow_le_pow_iff_right Nat.one_lt_two).1 hle
    have hlt' := (Nat.pow_lt_pow_iff_right Nat.one_lt_two).1 hnum
    -- The loop stops at the first power of two that is above.
    obtain rfl : k = 29 := by omega
    have halloced : g.vector.alloced = 2 ^ 29 := hk.trans (one_mul _)
    refine ⟨g, hg, halloced, ?_⟩
    rw [copySize, halloced]
    rfl

end Mksh
