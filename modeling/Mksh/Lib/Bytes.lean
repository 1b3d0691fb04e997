import Mathlib.Data.List.Basic
import Mathlib.Data.List.Induction

/-!
# Numbers in memory

Memory is a list of bytes, and a number is stored in some of them, in one of the two orders
(`Bytes.load`). What is loaded depends on these bytes only (`load_append`), and is `0` if and
only if all of them are (`load_eq_zero`).
-/

namespace Bytes

/-- The order in which the bytes of a number are stored. -/
inductive Order
  | little
  | big
  deriving DecidableEq

/-- The number that some bytes stand for. -/
def value : Order → List UInt8 → ℕ
  | .little, bytes => bytes.foldr (fun b v => b.toNat + 256 * v) 0
  | .big, bytes => bytes.foldl (fun v b => 256 * v + b.toNat) 0

/-- Loading a number of `n` bytes, `i` bytes from the beginning. -/
def load (o : Order) (n i : ℕ) (mem : List UInt8) : ℕ := value o ((mem.drop i).take n)

variable {o : Order} {n i : ℕ} {mem bytes : List UInt8}

/-- What follows the bytes that are read does not matter. -/
theorem load_append (h : i + n ≤ mem.length) (t : List UInt8) :
    load o n i (mem ++ t) = load o n i mem := by
  have hlen : n ≤ (mem.drop i).length := by
    rw [List.length_drop]
    omega
  rw [load, load, List.drop_append_of_le_length (by omega), List.take_append_of_le_length hlen]

/-- Only zeros have the value zero. -/
theorem value_eq_zero : value o bytes = 0 ↔ ∀ b ∈ bytes, b = 0 := by
  have hbyte (b : UInt8) : b.toNat = 0 ↔ b = 0 := by
    rw [← UInt8.toNat_inj]
    rfl
  cases o with
  | little =>
    induction bytes with
    | nil => simp [value]
    | cons b bytes ih =>
      have hcons : value .little (b :: bytes) = 0 ↔ b.toNat = 0 ∧ value .little bytes = 0 := by
        rw [value, List.foldr_cons, value]
        omega
      rw [hcons, List.forall_mem_cons]
      exact and_congr (hbyte b) ih
  | big =>
    induction bytes using List.reverseRecOn with
    | nil => simp [value]
    | append_singleton bytes b ih =>
      have hconcat : value .big (bytes ++ [b]) = 0 ↔ value .big bytes = 0 ∧ b.toNat = 0 := by
        rw [value, List.foldl_append, List.foldl_cons, List.foldl_nil, value]
        omega
      rw [hconcat, List.forall_mem_append, List.forall_mem_singleton]
      exact and_congr ih (hbyte b)

/-- What is read is zero if all of its bytes are. -/
theorem load_eq_zero : load o n i mem = 0 ↔ ∀ b ∈ (mem.drop i).take n, b = 0 := value_eq_zero

end Bytes
