import Mksh.Vector.Slots

/-!
# Vectors filled in order

A vector that starts with ten slots, and to which data is only added, holds a list
(`CVector.Holds`): `vectorSet` puts the data after what is there (`Holds.vectorSet_some`).
With a `NULL` set in the end, the array of its slots is terminated
(`Holds.nullTerminated_vectorSet`). Growing loses no data, whatever the length of the list,
and it ends if an `int` counts so many (`Holds.exists_vectorSet`).
-/

namespace Mksh

variable {α : Type*}

/-- The array has the data `l`, and a `NULL` after it. -/
def NullTerminated (array : List (Option α)) (l : List α) : Prop :=
  l.map some ++ [none] <+: array

/-- The sizes through which ten slots grow. -/
def TenDoubled (n : ℕ) : Prop := ∃ k ≤ 28, n = 10 * 2 ^ k

theorem TenDoubled.le {n : ℕ} (h : TenDoubled n) : 10 ≤ n := by
  obtain ⟨k, -, rfl⟩ := h
  exact Nat.le_mul_of_pos_right 10 (Nat.two_pow_pos k)

namespace CVector

/-- The data in the slots is `l`, in order. -/
structure Holds (v : CVector α) (l : List α) : Prop where
  alloced : TenDoubled v.alloced
  max_eq : v.max = l.length
  slot_eq (i : ℕ) : v.slot i = l[i]?

variable {v v' : CVector α} {l : List α} {i num fuel : ℕ} {val : Option α}

theorem holds_init : (vectorInit 10 : CVector α).Holds [] where
  alloced := ⟨0, by decide, rfl⟩
  max_eq := rfl
  slot_eq i := by
    rw [slot, vectorInit, List.getElem?_replicate]
    split_ifs <;> rfl

/-! ## Growing -/

/-- From the last size, the number of slots wraps around, and in the end to `0`. -/
theorem vectorEnsureLoop_of_last (hv : v.alloced = 10 * 2 ^ 28) (hnum : v.alloced ≤ num)
    (fuel : ℕ) : vectorEnsureLoop fuel v num = none := by
  have h1 : v.double.alloced = 2 ^ 30 := by rw [alloced_double, hv]; rfl
  have h2 : v.double.double.alloced = 2 ^ 31 := by rw [alloced_double, h1]; rfl
  have h3 : v.double.double.double.alloced = 0 := by rw [alloced_double, h2]; rfl
  refine vectorEnsureLoop_of_double hnum (by omega) (fun fuel => ?_) fuel
  refine vectorEnsureLoop_of_double (by omega) (by omega) (fun fuel => ?_) fuel
  exact vectorEnsureLoop_of_double (by omega) (by omega) (fun _ => vectorEnsureLoop_of_alloced h3)
    fuel

theorem vectorEnsure_tenDoubled (hv : TenDoubled v.alloced) (h : vectorEnsure v num = some v') :
    Grown v v' ∧ num < v'.alloced ∧ TenDoubled v'.alloced := by
  refine vectorEnsureLoop_grown (P := TenDoubled) (fun v hv hle => ?_) hv h
  obtain ⟨k, hk, hv⟩ := hv
  -- Only the last size wraps around.
  rcases Nat.lt_or_eq_of_le hk with hk | rfl
  · have hpow : v.alloced * 2 = 10 * 2 ^ (k + 1) := by rw [hv, pow_succ, mul_assoc]
    refine .inl ⟨?_, k + 1, hk, hpow⟩
    rw [hpow]
    calc 10 * 2 ^ (k + 1) ≤ 10 * 2 ^ 28 :=
          Nat.mul_le_mul_left 10 (Nat.pow_le_pow_right (by decide) hk)
      _ < 2 ^ 32 := by decide
  · exact .inr (vectorEnsureLoop_of_last hv hle)

/-! ## Setting -/

theorem Holds.vectorEmptySlot_eq (hv : v.Holds l) : vectorEmptySlot v = l.length := by
  have hmax := hv.max_eq
  rw [vectorEmptySlot]
  split_ifs with h
  · omega
  · obtain ⟨hle, -, hempty⟩ := emptySlotLoop_spec v v.max 0
    by_contra hne
    have hlt : emptySlotLoop v v.max 0 < l.length := by omega
    have hnone := hempty (by omega)
    rw [hv.slot_eq, List.getElem?_eq_getElem hlt] at hnone
    cases hnone

/-- Setting `val` puts it after the data, where it is within the slots. -/
theorem Holds.vectorSet (hv : v.Holds l) (h : vectorSet v val = some (i, v')) :
    v'.max = l.length + 1 ∧ l.length < v'.alloced ∧ TenDoubled v'.alloced ∧
      v'.slot = Function.update v.slot l.length val := by
  rw [Mksh.vectorSet] at h
  obtain ⟨grown, hgrown, heq⟩ := Option.map_eq_some_iff.1 h
  rw [hv.vectorEmptySlot_eq] at hgrown heq
  obtain ⟨hsame, hlt, hten⟩ := vectorEnsure_tenDoubled hv.alloced hgrown
  obtain ⟨rfl, rfl⟩ := Prod.mk.inj heq
  refine ⟨?_, ?_, ?_, ?_⟩
  · change (if grown.max ≤ l.length then l.length + 1 else grown.max) = l.length + 1
    rw [if_pos (hsame.max_eq.trans hv.max_eq).le]
  · exact hlt.trans_eq put_alloced.symm
  · exact put_alloced.symm ▸ hten
  · rw [← funext hsame.slot_eq]
    exact slot_put hlt

theorem Holds.vectorSet_some {a : α} (hv : v.Holds l)
    (h : Mksh.vectorSet v (some a) = some (i, v')) : v'.Holds (l ++ [a]) := by
  obtain ⟨hmax, hlt, hten, hslot⟩ := hv.vectorSet h
  refine ⟨hten, ?_, fun j => ?_⟩
  · rw [hmax, List.length_append, List.length_singleton]
  · rw [hslot, List.getElem?_append]
    rcases lt_trichotomy j l.length with hj | rfl | hj
    · rw [if_pos hj, Function.update_of_ne hj.ne, hv.slot_eq]
    · simp
    · rw [if_neg hj.not_gt, Function.update_of_ne hj.ne', hv.slot_eq,
        List.getElem?_eq_none hj.le, List.getElem?_eq_none]
      simp only [List.length_singleton]
      omega

theorem nullTerminated_index (hlt : l.length < v.alloced) (h : ∀ j ≤ l.length, v.slot j = l[j]?) :
    NullTerminated v.index l := by
  rw [NullTerminated, List.prefix_iff_getElem?]
  intro j hj
  rw [List.length_append, List.length_map, List.length_singleton] at hj
  have hindex : j < v.index.length := lt_of_lt_of_le hj hlt
  have hslot : v.index[j] = l[j]? := by
    rw [← h j (Nat.le_of_lt_succ hj), slot, List.getElem?_eq_getElem hindex, Option.join_some]
  rw [List.getElem?_eq_getElem hindex, hslot, List.getElem_append]
  split_ifs with hlen
  · rw [List.length_map] at hlen
    rw [List.getElem_map, List.getElem?_eq_getElem hlen]
  · rw [List.length_map] at hlen
    rw [List.getElem?_eq_none (Nat.le_of_not_lt hlen), List.getElem_singleton]

theorem Holds.nullTerminated (hv : v.Holds l) (h : l.length < v.alloced) :
    NullTerminated v.index l :=
  nullTerminated_index h fun j _ => hv.slot_eq j

/-- After a `NULL` has been set, there is one within the slots. -/
theorem Holds.nullTerminated_vectorSet (hv : v.Holds l)
    (h : Mksh.vectorSet v none = some (i, v')) : NullTerminated v'.index l := by
  obtain ⟨-, hlt, -, hslot⟩ := hv.vectorSet h
  refine nullTerminated_index hlt fun j hj => ?_
  rw [hslot]
  rcases hj.lt_or_eq with hj | rfl
  · rw [Function.update_of_ne hj.ne, hv.slot_eq]
  · rw [Function.update_self, List.getElem?_eq_none le_rfl]

theorem Holds.exists_vectorSet (hv : v.Holds l) (h : l.length < 2 ^ 31) (val : Option α) :
    ∃ v', Mksh.vectorSet v val = some (l.length, v') := by
  have hpos := hv.alloced.le
  obtain ⟨grown, hgrown⟩ := exists_vectorEnsureLoop (k := 32) (by omega)
    (show l.length < v.alloced * 2 ^ 32 by omega) h
  rw [Mksh.vectorSet, hv.vectorEmptySlot_eq, vectorEnsure, hgrown]
  exact ⟨_, rfl⟩

end CVector

end Mksh
