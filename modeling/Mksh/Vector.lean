import Mathlib.Algebra.Order.Ring.Nat
import Mathlib.Data.List.Basic
import Mathlib.Tactic.Ring

/-!
# Vectors

A vector has slots, those from `max` on being empty. It grows by doubling the
number of its slots, an `unsigned int`, until there is one for an index. When the
number is a power of two it wraps around to `0`, so that growing only ends for an
index less than `2 ^ 31` (`vectorEnsure_eq_some`, `exists_vectorEnsure`).
-/

namespace Mksh

variable {α : Type*}

/-- A vector: the number of its slots in use, and all its slots, with the data they
    point to. -/
structure CVector (α : Type*) where
  max : ℕ
  index : List (Option α)
  deriving DecidableEq

namespace CVector

/-- The number of allocated slots. -/
def alloced (v : CVector α) : ℕ := v.index.length

/-- The data of a slot. -/
def slot (v : CVector α) (i : ℕ) : Option α := v.index[i]?.join

/-- Twice as many slots, the new ones empty. -/
def double (v : CVector α) : CVector α :=
  { v with index := (v.index ++ List.replicate v.alloced none).take (v.alloced * 2 % 2 ^ 32) }

/-- Putting data into an allocated slot. -/
def setSlot (v : CVector α) (i : ℕ) (val : α) : CVector α :=
  { v with index := v.index.set i (some val) }

end CVector

/-- A vector without elements, with one slot at least. -/
def vectorInit (size : ℕ) : CVector α := ⟨0, List.replicate (if size = 0 then 1 else size) none⟩

/-- Growing until there is a slot `num`; `none` if it takes more turns than `fuel`. -/
def vectorEnsureLoop : ℕ → CVector α → ℕ → Option (CVector α)
  | 0, _, _ => none
  | fuel + 1, v, num =>
    if num < v.alloced then some v
    else if v.double.alloced ≤ num then vectorEnsureLoop fuel v.double num
    else some v.double

/-- Growing until there is a slot `num`; `none` if that never ends: within as many
    turns, the number of slots is a multiple of `2 ^ 32`, that is `0`. -/
def vectorEnsure (v : CVector α) (num : ℕ) : Option (CVector α) := vectorEnsureLoop 33 v num

/-- Setting the slot at an index, up to which the vector grows. -/
def vectorSetIndex (v : CVector α) (i : ℕ) (val : α) : Option (CVector α) :=
  (vectorEnsure v i).map fun v =>
    { v.setSlot i val with max := if v.max ≤ i then i + 1 else v.max }

/-- The slot at an index, up to which the vector grows. -/
def vectorLookupEnsure (v : CVector α) (i : ℕ) : Option (CVector α × Option α) :=
  (vectorEnsure v i).map fun v => (v, v.slot i)

namespace CVector

/-- A vector that was allocated with one slot, and has grown since. -/
structure Wf (v : CVector α) : Prop where
  alloced_eq : ∃ k ≤ 31, v.alloced = 2 ^ k
  max_le : v.max ≤ v.alloced
  slot_eq_none : ∀ i, v.max ≤ i → v.slot i = none

/-- A vector with the same data, and maybe more slots. -/
structure Grown (v v' : CVector α) : Prop where
  max_eq : v'.max = v.max
  alloced_le : v.alloced ≤ v'.alloced
  slot_eq : ∀ i, v'.slot i = v.slot i

variable {v v' v'' : CVector α} {i j num : ℕ} {val : α}

theorem Grown.refl (v : CVector α) : Grown v v := ⟨rfl, le_rfl, fun _ => rfl⟩

theorem Grown.trans (h : Grown v v') (h' : Grown v' v'') : Grown v v'' :=
  ⟨h'.max_eq.trans h.max_eq, h.alloced_le.trans h'.alloced_le,
    fun i => (h'.slot_eq i).trans (h.slot_eq i)⟩

theorem wf_init : (vectorInit 1 : CVector α).Wf := by
  refine ⟨⟨0, by decide, rfl⟩, Nat.zero_le _, fun i _ => ?_⟩
  rcases i with _ | i
  · rfl
  · rfl

theorem alloced_double (v : CVector α) : v.double.alloced = v.alloced * 2 % 2 ^ 32 := by
  rw [double, alloced, List.length_take, List.length_append, List.length_replicate]
  exact min_eq_left ((Nat.mod_le _ _).trans (by rw [alloced]; omega))

/-- As long as the number of slots does not wrap around, no data is lost. -/
theorem grown_double (h : v.alloced * 2 < 2 ^ 32) : Grown v v.double := by
  refine ⟨rfl, ?_, fun i => ?_⟩
  · rw [alloced_double, Nat.mod_eq_of_lt h]
    omega
  · have htake : v.double.index = v.index ++ List.replicate v.alloced none := by
      rw [double, Nat.mod_eq_of_lt h, List.take_of_length_le]
      rw [List.length_append, List.length_replicate, alloced]
      omega
    rw [slot, slot, htake, List.getElem?_append]
    split_ifs with hi
    · rfl
    · rw [List.getElem?_eq_none (Nat.le_of_not_lt hi), List.getElem?_replicate]
      split_ifs
      · rfl
      · rfl

theorem Wf.grown (hv : v.Wf) (h : Grown v v') (hk : ∃ k ≤ 31, v'.alloced = 2 ^ k) : v'.Wf :=
  ⟨hk, h.max_eq ▸ hv.max_le.trans h.alloced_le,
    fun i hi => (h.slot_eq i).trans (hv.slot_eq_none i (h.max_eq ▸ hi))⟩

end CVector

open CVector

variable {v v' : CVector α} {i j num fuel : ℕ} {val : α}

/-- Without slots, growing does not end. -/
theorem vectorEnsureLoop_of_alloced (h : v.alloced = 0) : vectorEnsureLoop fuel v num = none := by
  induction fuel generalizing v with
  | zero => rfl
  | succ fuel ih =>
    have hdouble : v.double.alloced = 0 := by
      rw [alloced_double, h]
      rfl
    rw [vectorEnsureLoop, if_neg (by omega), if_pos (by omega), ih hdouble]

/-- Growing through some sizes, where each is doubled without wrapping around, or else growing
    does not end: no data is lost. -/
theorem vectorEnsureLoop_grown {P : ℕ → Prop}
    (hP : ∀ v : CVector α, P v.alloced → v.alloced ≤ num →
      (v.alloced * 2 < 2 ^ 32 ∧ P (v.alloced * 2)) ∨ ∀ fuel, vectorEnsureLoop fuel v num = none)
    (hv : P v.alloced) (h : vectorEnsureLoop fuel v num = some v') :
    Grown v v' ∧ num < v'.alloced ∧ P v'.alloced := by
  induction fuel generalizing v with
  | zero => cases h
  | succ fuel ih =>
    by_cases hlt : num < v.alloced
    · rw [vectorEnsureLoop, if_pos hlt] at h
      obtain rfl := Option.some.inj h
      exact ⟨.refl v, hlt, hv⟩
    rcases hP v hv (Nat.le_of_not_lt hlt) with ⟨hlt32, hdouble⟩ | hnone
    · have hgrown := grown_double hlt32
      rw [← Nat.mod_eq_of_lt hlt32, ← alloced_double] at hdouble
      rw [vectorEnsureLoop, if_neg hlt] at h
      split_ifs at h with hle
      · obtain ⟨hgrown', hrest⟩ := ih hdouble h
        exact ⟨hgrown.trans hgrown', hrest⟩
      · obtain rfl := Option.some.inj h
        exact ⟨hgrown, Nat.lt_of_not_le hle, hdouble⟩
    · rw [hnone] at h
      cases h

/-- Growing does not end from where it does not after doubling once. -/
theorem vectorEnsureLoop_of_double (hle : v.alloced ≤ num) (hle' : v.double.alloced ≤ num)
    (h : ∀ fuel, vectorEnsureLoop fuel v.double num = none) (fuel : ℕ) :
    vectorEnsureLoop fuel v num = none := by
  cases fuel with
  | zero => rfl
  | succ fuel => rw [vectorEnsureLoop, if_neg (Nat.not_lt.2 hle), if_pos hle', h]

theorem vectorEnsureLoop_eq_some {k : ℕ} (hk : k ≤ 31) (hv : v.alloced = 2 ^ k)
    (h : vectorEnsureLoop fuel v num = some v') :
    Grown v v' ∧ num < v'.alloced ∧ ∃ k ≤ 31, v'.alloced = 2 ^ k := by
  refine vectorEnsureLoop_grown (P := fun n => ∃ k ≤ 31, n = 2 ^ k) (fun v hv hle => ?_)
    ⟨k, hk, hv⟩ h
  obtain ⟨k, hk, hv⟩ := hv
  rcases Nat.lt_or_eq_of_le hk with hk | rfl
  · have hpow : v.alloced * 2 = 2 ^ (k + 1) := by rw [hv, pow_succ]
    refine .inl ⟨?_, k + 1, hk, hpow⟩
    rw [hpow]
    exact Nat.pow_lt_pow_right (by decide) (by omega)
  · -- The number of slots wraps around.
    have hdouble : v.double.alloced = 0 := by
      rw [alloced_double, hv]
      rfl
    exact .inr (vectorEnsureLoop_of_double hle (hdouble ▸ Nat.zero_le num) fun fuel =>
      vectorEnsureLoop_of_alloced hdouble)

/-- When growing ends, there is a slot, and no data is lost. -/
theorem vectorEnsure_eq_some (hv : v.Wf) (h : vectorEnsure v num = some v') :
    Grown v v' ∧ v'.Wf ∧ num < v'.alloced := by
  obtain ⟨k, hk, hpow⟩ := hv.alloced_eq
  obtain ⟨hgrown, hnum, hk'⟩ := vectorEnsureLoop_eq_some hk hpow h
  exact ⟨hgrown, hv.grown hgrown hk', hnum⟩

theorem exists_vectorEnsureLoop {k : ℕ} (hv : 0 < v.alloced) (hnum : num < v.alloced * 2 ^ k)
    (hlt : num < 2 ^ 31) : ∃ v', vectorEnsureLoop (k + 1) v num = some v' := by
  induction k generalizing v with
  | zero => exact ⟨v, by rw [vectorEnsureLoop, if_pos (by simpa using hnum)]⟩
  | succ k ih =>
    rw [vectorEnsureLoop]
    split_ifs with hslot hle
    · exact ⟨v, rfl⟩
    · have hdouble : v.double.alloced = v.alloced * 2 := by
        rw [alloced_double, Nat.mod_eq_of_lt (by omega)]
      refine ih (by omega) ?_
      rw [hdouble, mul_assoc, ← pow_succ']
      exact hnum
    · exact ⟨v.double, rfl⟩

/-- Growing ends for the indices that are not negative as an `int`. -/
theorem exists_vectorEnsure (hv : v.Wf) (h : num < 2 ^ 31) :
    ∃ v', vectorEnsure v num = some v' := by
  obtain ⟨k, -, hpow⟩ := hv.alloced_eq
  have hpos : 0 < v.alloced := hpow ▸ Nat.two_pow_pos k
  refine exists_vectorEnsureLoop (k := 32) hpos (h.trans_le ?_) h
  calc 2 ^ 31 ≤ 1 * 2 ^ 32 := by decide
    _ ≤ v.alloced * 2 ^ 32 := Nat.mul_le_mul_right _ hpos

/-! ## Slots -/

@[simp]
theorem setSlot_max (v : CVector α) (i : ℕ) (val : α) : (v.setSlot i val).max = v.max := rfl

@[simp]
theorem setSlot_alloced (v : CVector α) (i : ℕ) (val : α) :
    (v.setSlot i val).alloced = v.alloced := List.length_set

theorem slot_setSlot (h : i < v.alloced) (val : α) (j : ℕ) :
    (v.setSlot i val).slot j = if j = i then some val else v.slot j := by
  rw [slot, setSlot, List.getElem?_set]
  rcases eq_or_ne i j with rfl | hij
  · rw [if_pos rfl, if_pos (show i < v.index.length from h), if_pos rfl]
    rfl
  · rw [if_neg hij, if_neg hij.symm]
    rfl

/-- The vector after `val` has been set at `i`. -/
structure CVector.IsSet (v : CVector α) (i : ℕ) (val : α) (v' : CVector α) : Prop where
  wf : v'.Wf
  lt : i < v'.alloced
  slot_eq : ∀ j, v'.slot j = if j = i then some val else v.slot j

theorem CVector.Wf.isSet_setSlot (hv : v.Wf) (hmax : i < v.max) (val : α) :
    v.IsSet i val (v.setSlot i val) := by
  have hi : i < v.alloced := hmax.trans_le hv.max_le
  refine ⟨⟨hv.alloced_eq.imp fun k hk => ⟨hk.1, (setSlot_alloced ..).trans hk.2⟩, ?_,
    fun j hj => ?_⟩, (setSlot_alloced v i val).symm ▸ hi, slot_setSlot hi val⟩
  · rw [setSlot_max, setSlot_alloced]
    exact hv.max_le
  · rw [setSlot_max] at hj
    rw [slot_setSlot hi, if_neg (by omega)]
    exact hv.slot_eq_none j hj

theorem vectorSetIndex_eq_some (hv : v.Wf) (h : vectorSetIndex v i val = some v') :
    v.IsSet i val v' ∧ i < v'.max := by
  obtain ⟨grown, hgrown, rfl⟩ := Option.map_eq_some_iff.1 h
  obtain ⟨hslots, hwf, hi⟩ := vectorEnsure_eq_some hv hgrown
  have hslot (j : ℕ) : (grown.setSlot i val).slot j = if j = i then some val else v.slot j := by
    rw [slot_setSlot hi, hslots.slot_eq]
  refine ⟨⟨⟨hwf.alloced_eq.imp fun k hk => ⟨hk.1, (setSlot_alloced ..).trans hk.2⟩, ?_,
    fun j hj => ?_⟩, (setSlot_alloced grown i val).symm ▸ hi, hslot⟩, ?_⟩
  · change (if grown.max ≤ i then i + 1 else grown.max) ≤ (grown.setSlot i val).alloced
    rw [setSlot_alloced]
    split_ifs
    · exact hi
    · exact hwf.max_le
  · change (grown.setSlot i val).slot j = none
    have hj : (if grown.max ≤ i then i + 1 else grown.max) ≤ j := hj
    -- Beyond the new maximum are neither the slot that is set nor those that were in use.
    have hle : i < j ∧ v.max ≤ j := by
      rw [hslots.max_eq] at hj
      split_ifs at hj
      · omega
      · omega
    rw [hslot, if_neg (Nat.ne_of_gt hle.1)]
    exact hv.slot_eq_none j hle.2
  · change i < if grown.max ≤ i then i + 1 else grown.max
    split_ifs
    · omega
    · omega

theorem exists_vectorSetIndex (hv : v.Wf) (h : i < 2 ^ 31) (val : α) :
    ∃ v', vectorSetIndex v i val = some v' := by
  obtain ⟨grown, hgrown⟩ := exists_vectorEnsure hv h
  exact ⟨_, Option.map_eq_some_iff.2 ⟨grown, hgrown, rfl⟩⟩

end Mksh
