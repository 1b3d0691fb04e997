import Mathlib.Logic.Basic

/-!
# Bits in a mask

A word in which the bits in a mask are overwritten with those of another word (`overwrite`). It is
left as it is if and only if the two have the same bits there (`overwrite_eq_self_iff`).
-/

namespace BitVec

variable {w : Nat} {mask m a b c : BitVec w}

/-- The word `b`, with the bits in `mask` overwritten with those of `a`. -/
def overwrite (mask a b : BitVec w) : BitVec w := b &&& ~~~mask ||| a &&& mask

/-- The bits of the mask are those of `a`, and the others those of `b`. -/
theorem getElem_overwrite {i : Nat} (hi : i < w) :
    (overwrite mask a b)[i] = if mask[i] then a[i] else b[i] := by
  rw [overwrite, getElem_or, getElem_and, getElem_and, getElem_not]
  cases mask[i] with
  | true => rw [Bool.not_true, Bool.and_false, Bool.false_or, Bool.and_true, if_pos rfl]
  | false =>
    rw [Bool.not_false, Bool.and_true, Bool.and_false, Bool.or_false, if_neg Bool.false_ne_true]

/-- The bits in a mask are equal. -/
theorem and_eq_and_iff : a &&& mask = b &&& mask ↔
    ∀ i (hi : i < w), mask[i] = true → a[i] = b[i] := by
  constructor
  · intro h i hi hm
    have hbit := congrArg (fun x : BitVec w => x[i]) h
    simpa only [getElem_and, hm, Bool.and_true] using hbit
  · refine fun h => eq_of_getElem_eq fun i hi => ?_
    rw [getElem_and, getElem_and]
    cases hm : mask[i] with
    | true => rw [h i hi hm]
    | false => rw [Bool.and_false, Bool.and_false]

/-- What is overwritten again does not matter. -/
theorem overwrite_overwrite : overwrite mask a (overwrite mask b c) = overwrite mask a c := by
  refine eq_of_getElem_eq fun i hi => ?_
  rw [getElem_overwrite, getElem_overwrite, getElem_overwrite]
  cases mask[i] with
  | true => rfl
  | false => rfl

/-- Below the mask, what is overwritten is `a`. -/
theorem overwrite_and_self : overwrite mask a b &&& mask = a &&& mask :=
  and_eq_and_iff.2 fun i hi hm => by rw [getElem_overwrite, if_pos hm]

/-- Of the bits in a smaller mask, all are overwritten. -/
theorem overwrite_and (h : mask &&& m = m) : overwrite mask a b &&& m = a &&& m := by
  rw [← h, ← BitVec.and_assoc, overwrite_and_self, BitVec.and_assoc]

/-- Nothing changes if the bits below the mask are the same already. -/
theorem overwrite_eq_self_iff : overwrite mask a b = b ↔ b &&& mask = a &&& mask := by
  constructor
  · intro h
    calc b &&& mask = overwrite mask a b &&& mask := by rw [h]
      _ = a &&& mask := overwrite_and_self
  · rw [and_eq_and_iff]
    refine fun h => eq_of_getElem_eq fun i hi => ?_
    rw [getElem_overwrite]
    cases hm : mask[i] with
    | true => exact (h i hi hm).symm
    | false => rfl

end BitVec
