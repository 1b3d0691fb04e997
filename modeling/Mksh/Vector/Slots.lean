import Mathlib.Data.Set.Card
import Mksh.Vector

/-!
# Vectors as maps

The slots of a vector are a partial map from indices to data, which is finite. As
long as the indices are less than `2 ^ 27`, the vector keeps to its invariant
(`CVector.Fits`): `max` is one more than the greatest index that is mapped, and what
the functions do to the slots is what they do to a map.
-/

namespace Mksh

variable {α : Type*}

/-- Writing a slot, maybe with `NULL`. -/
def CVector.put (v : CVector α) (i : ℕ) (val : Option α) : CVector α :=
  { v with index := v.index.set i val }

/-- The loop of `vectorEmptySlot`, over `n` slots from `i` on. -/
def emptySlotLoop (v : CVector α) : ℕ → ℕ → ℕ
  | 0, i => i
  | n + 1, i => if (v.slot i).isNone then i else emptySlotLoop v n (i + 1)

/-- This function only returns next empty slot index. It does not mean the slot's index
    memory is assigned. -/
def vectorEmptySlot (v : CVector α) : ℕ := if v.max = 0 then 0 else emptySlotLoop v v.max 0

/-- Set value to the smallest empty slot. -/
def vectorSet (v : CVector α) (val : Option α) : Option (ℕ × CVector α) :=
  let i := vectorEmptySlot v
  (vectorEnsure v i).map fun v =>
    (i, { v.put i val with max := if v.max ≤ i then i + 1 else v.max })

/-- Look up vector. -/
def vectorLookup (v : CVector α) (i : ℕ) : Option α := if v.max ≤ i then none else v.slot i

/-- The loop of `vectorUnset`: `max`, an `unsigned int`, is decremented for each slot that is
    empty, going back from `i`, until it was `0`. -/
def unsetLoop : ℕ → CVector α → CVector α
  | 0, v => v
  | i + 1, v =>
    if (v.slot i).isNone then
      let v' := { v with max := (v.max + (2 ^ 32 - 1)) % 2 ^ 32 }
      if v.max ≠ 0 then unsetLoop i v' else v'
    else v

/-- Unset value at specified index slot. -/
def vectorUnset (v : CVector α) (i : ℕ) : CVector α :=
  if v.alloced ≤ i then v
  else
    let v := v.put i none
    if i + 1 = v.max then unsetLoop i { v with max := v.max - 1 } else v

/-- Count the number of not empty slots. -/
def vectorCount (v : CVector α) : ℕ := (List.range v.max).countP fun i => (v.slot i).isSome

namespace CVector

/-- A vector with fewer than `2 ^ 28` slots, in which `max` is that of the data. -/
structure Fits (v : CVector α) : Prop where
  pos : 0 < v.alloced
  lt : v.alloced < 2 ^ 28
  max_le : v.max ≤ v.alloced
  slot_eq_none {i : ℕ} : v.max ≤ i → v.slot i = none
  last {i : ℕ} : v.max = i + 1 → v.slot i ≠ none

variable {v v' : CVector α} {i j n num fuel : ℕ} {val : Option α} {m : ℕ → Option α}

@[simp]
theorem put_alloced : (v.put i val).alloced = v.alloced := List.length_set

theorem slot_put (h : i < v.alloced) : (v.put i val).slot = Function.update v.slot i val := by
  ext1 j
  rw [slot, put, List.getElem?_set]
  rcases eq_or_ne j i with rfl | hj
  · rw [if_pos rfl, if_pos (show j < v.index.length from h), Function.update_self]
    rfl
  · rw [if_neg hj.symm, Function.update_of_ne hj]
    rfl

theorem fits_init {size : ℕ} (h : size < 2 ^ 27) : (vectorInit size : CVector α).Fits := by
  have hlen : (vectorInit size : CVector α).alloced = if size = 0 then 1 else size :=
    List.length_replicate
  have hslot (i : ℕ) : (vectorInit size : CVector α).slot i = none := by
    rw [slot, vectorInit, List.getElem?_replicate]
    by_cases hi : i < if size = 0 then 1 else size
    · rw [if_pos hi]
      rfl
    · rw [if_neg hi]
      rfl
  refine ⟨?_, ?_, Nat.zero_le _, fun _ => hslot _, fun h => absurd h (Nat.succ_ne_zero _).symm⟩
  · rw [hlen]
    split_ifs
    · exact Nat.one_pos
    · omega
  · rw [hlen]
    split_ifs
    · decide
    · omega

theorem Fits.grown (hv : v.Fits) (h : Grown v v') (hlt : v'.alloced < 2 ^ 28) : v'.Fits where
  pos := hv.pos.trans_le h.alloced_le
  lt := hlt
  max_le := h.max_eq ▸ hv.max_le.trans h.alloced_le
  slot_eq_none hi := (h.slot_eq _).trans (hv.slot_eq_none (h.max_eq ▸ hi))
  last hi := (h.slot_eq _).symm ▸ hv.last (h.max_eq ▸ hi)

/-- Growing for an index less than `2 ^ 27`. -/
theorem vectorEnsureLoop_fits (hpos : 0 < v.alloced) (hlt : v.alloced < 2 ^ 28)
    (hnum : num < 2 ^ 27) (h : vectorEnsureLoop fuel v num = some v') :
    Grown v v' ∧ num < v'.alloced ∧ v'.alloced < 2 ^ 28 := by
  obtain ⟨hgrown, hslot, -, hlt'⟩ := vectorEnsureLoop_grown
    (P := fun n => 0 < n ∧ n < 2 ^ 28) (fun v hv hle => .inl (by omega)) ⟨hpos, hlt⟩ h
  exact ⟨hgrown, hslot, hlt'⟩

theorem Fits.exists_vectorEnsure (hv : v.Fits) (hnum : num < 2 ^ 27) :
    ∃ v', vectorEnsure v num = some v' ∧ Grown v v' ∧ v'.Fits ∧ num < v'.alloced := by
  have hslots : num < v.alloced * 2 ^ 32 := by
    have hpos := hv.pos
    omega
  obtain ⟨v', hv'⟩ := exists_vectorEnsureLoop hv.pos hslots (by omega)
  obtain ⟨hgrown, hlt, hlt'⟩ := vectorEnsureLoop_fits hv.pos hv.lt hnum hv'
  exact ⟨v', hv', hgrown, hv.grown hgrown hlt', hlt⟩

/-- The loop finds the first empty slot, or goes through all. -/
theorem emptySlotLoop_spec (v : CVector α) (n i : ℕ) :
    emptySlotLoop v n i ≤ i + n ∧ (∀ j, i ≤ j → j < emptySlotLoop v n i → v.slot j ≠ none) ∧
      (emptySlotLoop v n i < i + n → v.slot (emptySlotLoop v n i) = none) := by
  induction n generalizing i with
  | zero =>
    exact ⟨le_rfl, fun j hi hj => absurd hj (Nat.not_lt.2 hi), fun h => absurd h (lt_irrefl i)⟩
  | succ n ih =>
    rw [emptySlotLoop]
    split_ifs with hnone
    · exact ⟨Nat.le_add_right _ _, fun j hi hj => absurd hj (Nat.not_lt.2 hi),
        fun _ => Option.isNone_iff_eq_none.1 hnone⟩
    · obtain ⟨hle, hfull, hempty⟩ := ih (i + 1)
      refine ⟨by omega, fun j hi hj => ?_, fun h => hempty (by omega)⟩
      rcases hi.eq_or_lt with rfl | hi
      · exact fun h => hnone (Option.isNone_iff_eq_none.2 h)
      · exact hfull j hi hj

/-- The least index that is not mapped. -/
def IsLeastFree (m : ℕ → Option α) (i : ℕ) : Prop := IsLeast {j | m j = none} i

theorem Fits.isLeastFree (hv : v.Fits) : IsLeastFree v.slot (vectorEmptySlot v) := by
  rw [vectorEmptySlot]
  split_ifs with hmax
  · exact ⟨hv.slot_eq_none hmax.le, fun j _ => Nat.zero_le j⟩
  · obtain ⟨hle, hfull, hempty⟩ := emptySlotLoop_spec v v.max 0
    rw [Nat.zero_add] at hle hempty
    refine ⟨?_, fun j hj => not_lt.1 fun hlt => hfull j (Nat.zero_le j) hlt hj⟩
    rcases hle.lt_or_eq with hlt | heq
    · exact hempty hlt
    · exact hv.slot_eq_none heq.ge

/-- Data put into a slot for which there is room. -/
theorem Fits.put (hv : v.Fits) (hi : i < v.alloced) (a : α) :
    Fits { v.put i (some a) with max := if v.max ≤ i then i + 1 else v.max } := by
  have hslot (max : ℕ) : CVector.slot { v.put i (some a) with max } =
      Function.update v.slot i (some a) := slot_put hi
  have halloced (max : ℕ) : CVector.alloced { v.put i (some a) with max } = v.alloced :=
    put_alloced
  refine ⟨?_, ?_, ?_, fun {j} hj => ?_, fun {j} hj => ?_⟩
  · rw [halloced]
    exact hv.pos
  · rw [halloced]
    exact hv.lt
  · rw [halloced]
    change (if v.max ≤ i then i + 1 else v.max) ≤ v.alloced
    split_ifs
    · exact hi
    · exact hv.max_le
  · have hle : v.max ≤ j ∧ j ≠ i := by
      change (if v.max ≤ i then i + 1 else v.max) ≤ j at hj
      split_ifs at hj
      · omega
      · omega
    rw [hslot, Function.update_of_ne hle.2]
    exact hv.slot_eq_none hle.1
  · rw [hslot]
    rcases eq_or_ne j i with rfl | hji
    · rw [Function.update_self]
      exact Option.some_ne_none a
    · rw [Function.update_of_ne hji]
      refine hv.last ?_
      change (if v.max ≤ i then i + 1 else v.max) = j + 1 at hj
      split_ifs at hj
      · omega
      · exact hj

theorem Fits.vectorSet (hv : v.Fits) (h : vectorEmptySlot v < 2 ^ 27) (a : α) :
    ∃ v', vectorSet v (some a) = some (vectorEmptySlot v, v') ∧ v'.Fits ∧
      v'.slot = Function.update v.slot (vectorEmptySlot v) (some a) := by
  obtain ⟨grown, hgrown, hslots, hfits, hi⟩ := hv.exists_vectorEnsure h
  refine ⟨_, Option.map_eq_some_iff.2 ⟨grown, hgrown, rfl⟩, hfits.put hi a, ?_⟩
  rw [← funext hslots.slot_eq]
  exact slot_put hi

theorem Fits.vectorSetIndex (hv : v.Fits) (h : i < 2 ^ 27) (a : α) :
    ∃ v', vectorSetIndex v i a = some v' ∧ v'.Fits ∧
      v'.slot = Function.update v.slot i (some a) := by
  obtain ⟨grown, hgrown, hslots, hfits, hi⟩ := hv.exists_vectorEnsure h
  refine ⟨_, Option.map_eq_some_iff.2 ⟨grown, hgrown, rfl⟩, hfits.put hi a, ?_⟩
  rw [← funext hslots.slot_eq]
  exact slot_put hi

theorem Fits.vectorLookup (hv : v.Fits) (i : ℕ) : vectorLookup v i = v.slot i := by
  rw [Mksh.vectorLookup]
  split_ifs with hi
  · exact (hv.slot_eq_none hi).symm
  · rfl

theorem Fits.vectorLookupEnsure (hv : v.Fits) (h : i < 2 ^ 27) :
    ∃ v', vectorLookupEnsure v i = some (v', v.slot i) ∧ v'.Fits ∧ v'.slot = v.slot := by
  obtain ⟨grown, hgrown, hslots, hfits, -⟩ := hv.exists_vectorEnsure h
  refine ⟨grown, Option.map_eq_some_iff.2 ⟨grown, hgrown, ?_⟩, hfits, funext hslots.slot_eq⟩
  rw [hslots.slot_eq]

/-- Where the slots from `i` on are empty, the loop stops after the last one that is not. -/
theorem unsetLoop_spec (hmax : v.max = i) (hlt : i < 2 ^ 32)
    (hnone : ∀ j, i ≤ j → v.slot j = none) :
    (unsetLoop i v).index = v.index ∧ (unsetLoop i v).max ≤ i ∧
      (∀ j, (unsetLoop i v).max ≤ j → v.slot j = none) ∧
      ∀ j, (unsetLoop i v).max = j + 1 → v.slot j ≠ none := by
  induction i generalizing v with
  | zero => exact ⟨rfl, hmax.le, fun j _ => hnone j (Nat.zero_le j), fun j hj => by
      rw [unsetLoop, hmax] at hj
      cases hj⟩
  | succ i ih =>
    -- If the slot is empty, `max`, which is not `0`, is decremented.
    have hmax' : (v.max + (2 ^ 32 - 1)) % 2 ^ 32 = i := by omega
    simp only [unsetLoop, hmax', if_pos (show v.max ≠ 0 by omega)]
    split_ifs with hi
    · have hnone' : ∀ j, i ≤ j → v.slot j = none := by
        intro j hj
        rcases hj.eq_or_lt with rfl | hj
        · exact Option.isNone_iff_eq_none.1 hi
        · exact hnone j hj
      obtain ⟨hindex, hle, hrest⟩ := ih (v := ⟨i, v.index⟩) rfl (by omega) hnone'
      exact ⟨hindex, hle.trans (Nat.le_succ i), hrest⟩
    · refine ⟨rfl, hmax.le, fun j hj => hnone j (hmax ▸ hj), fun j hj => ?_⟩
      obtain rfl : i = j := Nat.succ.inj (hmax.symm.trans hj)
      exact fun h => hi (Option.isNone_iff_eq_none.2 h)

theorem Fits.vectorUnset (hv : v.Fits) (i : ℕ) :
    (vectorUnset v i).Fits ∧ (vectorUnset v i).slot = Function.update v.slot i none := by
  by_cases hi : v.alloced ≤ i
  · rw [Mksh.vectorUnset, if_pos hi]
    refine ⟨hv, (Function.update_eq_self_iff.2 ?_).symm⟩
    exact (hv.slot_eq_none (hv.max_le.trans hi)).symm
  have hunset : Mksh.vectorUnset v i = if i + 1 = v.max then
      unsetLoop i { v.put i none with max := v.max - 1 } else v.put i none := if_neg hi
  rw [hunset]
  have hslot : (v.put i none).slot = Function.update v.slot i none := slot_put (Nat.lt_of_not_le hi)
  have hnone {j : ℕ} (hj : v.max ≤ j ∨ j = i) : (v.put i none).slot j = none := by
    rw [hslot]
    rcases eq_or_ne j i with rfl | hji
    · exact Function.update_self ..
    · rw [Function.update_of_ne hji]
      exact hv.slot_eq_none (hj.resolve_right hji)
  have hlt := hv.lt
  have hle := hv.max_le
  -- Unsetting the last slot lowers the maximum to the last one that is still in use.
  by_cases hmax : i + 1 = v.max
  · rw [if_pos hmax]
    obtain ⟨hindex, hle', hempty, hlast⟩ := unsetLoop_spec (i := i)
      (v := { v.put i none with max := v.max - 1 }) (show v.max - 1 = i by omega) (by omega)
      fun j hj => hnone (show v.max ≤ j ∨ j = i by omega)
    have hslots : (unsetLoop i { v.put i none with max := v.max - 1 }).slot =
        (v.put i none).slot := by
      ext1 j
      rw [slot, hindex]
      rfl
    have halloced : (unsetLoop i { v.put i none with max := v.max - 1 }).alloced = v.alloced := by
      rw [alloced, hindex]
      exact put_alloced
    rw [hslots]
    refine ⟨⟨?_, ?_, ?_, fun hj => ?_, fun hj => ?_⟩, hslot⟩
    · rw [halloced]
      exact hv.pos
    · rw [halloced]
      exact hlt
    · rw [halloced]
      omega
    · rw [hslots]
      exact hempty _ hj
    · rw [hslots]
      exact hlast _ hj
  · rw [if_neg hmax]
    refine ⟨⟨?_, ?_, ?_, fun hj => hnone (.inl hj), fun {j} hj => ?_⟩, hslot⟩
    · rw [put_alloced]
      exact hv.pos
    · rw [put_alloced]
      exact hlt
    · rw [put_alloced]
      exact hle
    · have hj : v.max = j + 1 := hj
      rw [hslot, Function.update_of_ne (by omega)]
      exact hv.last hj

theorem Fits.vectorCount (hv : v.Fits) : vectorCount v = {i | v.slot i ≠ none}.ncard := by
  have hset : {i | v.slot i ≠ none} =
      ((Finset.range v.max).filter fun i => (v.slot i).isSome : Finset ℕ) := by
    ext i
    rw [Finset.coe_filter, Set.mem_ofPred_eq, Set.mem_ofPred_eq, Finset.mem_range,
      Option.isSome_iff_ne_none]
    refine ⟨fun hi => ⟨not_le.1 fun hle => hi (hv.slot_eq_none hle), hi⟩, And.right⟩
  rw [hset, Set.ncard_coe_finset, Mksh.vectorCount, List.countP_eq_length_filter]
  simp [Finset.card_def, Multiset.range, Multiset.filter_coe]

/-- `max` is one more than the greatest index that is mapped, if there is one. -/
theorem Fits.max_eq (hv : v.Fits) : (v.max = 0 ∧ ∀ i, v.slot i = none) ∨
    ∃ i, v.max = i + 1 ∧ IsGreatest {i | v.slot i ≠ none} i := by
  rcases hmax : v.max with _ | i
  · exact .inl ⟨rfl, fun i => hv.slot_eq_none (hmax.le.trans (Nat.zero_le i))⟩
  · refine .inr ⟨i, rfl, hv.last hmax, fun j hj => not_lt.1 fun hlt => hj ?_⟩
    exact hv.slot_eq_none (hmax ▸ hlt)

end CVector

end Mksh
