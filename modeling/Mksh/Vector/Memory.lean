import Mksh.Lib.Ensures
import Mksh.Vector.Slots

/-!
# Vectors in memory

Vectors given by their addresses: each has a record, with `max` and `alloced`, that
points to a block of slots. The functions are processes on the memory. They end if
there is no vector, or if growing it never ends.

A run calls them in any order (`VectorMemory.Run`), with sizes and indices less than
`2 ^ 27`. Each vector is then the map that the specifications of the calls give
(`refines_run`): a vector and a copy of it have blocks of their own, so that what is
done to one of them is not done to the other.
-/

namespace Mksh

open Process CVector

/-- A vector, in which `index` is the address of the slots. -/
structure VectorRecord where
  max : ℕ
  alloced : ℕ
  index : ℕ
  deriving DecidableEq

/-- The records of the vectors and the blocks of slots, each under its address, and an
    address from which on there are none. -/
structure VectorMemory (α : Type) where
  vector : ℕ → Option VectorRecord
  block : ℕ → Option (List (Option α))
  fresh : ℕ

/-- The functions on vectors in memory, which log nothing. -/
abbrev VectorProcess (α β : Type) := Process (VectorMemory α) Empty β

namespace VectorMemory

variable {α : Type}

/-! ## Functions -/

/-- A new record, with a new block. -/
def calloc (max alloced : ℕ) (slots : List (Option α)) (s : VectorMemory α) : VectorMemory α where
  vector := Function.update s.vector s.fresh (some ⟨max, alloced, s.fresh + 1⟩)
  block := Function.update s.block (s.fresh + 1) (some slots)
  fresh := s.fresh + 2

/-- Writing a vector, whose block is moved when it has been reallocated. -/
def write (v : ℕ) (r : VectorRecord) (cv : CVector α) (s : VectorMemory α) : VectorMemory α :=
  let index := if cv.alloced = r.alloced then r.index else s.fresh
  { vector := Function.update s.vector v (some ⟨cv.max, cv.alloced, index⟩),
    block := Function.update (Function.update s.block r.index none) index (some cv.index),
    fresh := s.fresh + 1 }

/-- The vector at an address, with its record and its slots. -/
def vectorAt (v : ℕ) : VectorProcess α (VectorRecord × CVector α) := do
  match (← get).vector v with
  | none => halt
  | some r =>
    match (← get).block r.index with
    | none => halt
    | some slots => if slots.length = r.alloced then return (r, ⟨r.max, slots⟩) else halt

/-- A function that changes a vector. -/
def onVector {β : Type} (v : ℕ) (f : CVector α → Option (β × CVector α)) : VectorProcess α β := do
  let (r, cv) ← vectorAt v
  match f cv with
  | none => halt
  | some (ret, cv') =>
    modify (write v r cv')
    return ret

/-- A new vector. -/
def vectorInit (size : ℕ) : VectorProcess α ℕ := do
  let v := (← get).fresh
  let cv : CVector α := Mksh.vectorInit size
  modify (calloc cv.max cv.alloced cv.index)
  return v

/-- The size of the copied block is an `unsigned int`. -/
def vectorCopy (v : ℕ) : VectorProcess α ℕ := do
  let (_, cv) ← vectorAt v
  let new := (← get).fresh
  let size := 8 * cv.alloced % 2 ^ 32
  modify (calloc cv.max cv.alloced (cv.index.take (size / 8)))
  return new

/-- Setting the first empty slot; the result is its index. -/
def vectorSet (v : ℕ) (val : α) : VectorProcess α ℕ :=
  onVector v fun cv => Mksh.vectorSet cv (some val)

/-- Setting the slot at an index. -/
def vectorSetIndex (v i : ℕ) (val : α) : VectorProcess α ℕ :=
  onVector v fun cv => (Mksh.vectorSetIndex cv i val).map fun cv => (i, cv)

/-- The slot at an index, if the vector has got so far. -/
def vectorLookup (v i : ℕ) : VectorProcess α (Option α) := do
  let (_, cv) ← vectorAt v
  return Mksh.vectorLookup cv i

/-- The slot at an index, up to which the vector grows. -/
def vectorLookupEnsure (v i : ℕ) : VectorProcess α (Option α) :=
  onVector v fun cv => (Mksh.vectorLookupEnsure cv i).map Prod.swap

/-- Emptying the slot at an index. -/
def vectorUnset (v i : ℕ) : VectorProcess α Unit :=
  onVector v fun cv => some ((), Mksh.vectorUnset cv i)

/-- The number of slots that are not empty. -/
def vectorCount (v : ℕ) : VectorProcess α ℕ := do
  let (_, cv) ← vectorAt v
  return Mksh.vectorCount cv

/-! ## Represented maps -/

/-- The vector at an address. -/
def Holds (s : VectorMemory α) (v : ℕ) (cv : CVector α) : Prop :=
  ∃ r, s.vector v = some r ∧ r.max = cv.max ∧ r.alloced = cv.alloced ∧
    s.block r.index = some cv.index

/-- The maps of the vectors, each under its address. -/
abbrev Maps (α : Type) := ℕ → Option (ℕ → Option α)

/-- The memory represents the maps; no two vectors share their slots. -/
structure Rep (s : VectorMemory α) (q : Maps α) : Prop where
  vector_eq_none {v : ℕ} : q v = none → s.vector v = none
  holds {v : ℕ} {m : ℕ → Option α} : q v = some m → ∃ cv, s.Holds v cv ∧ cv.Fits ∧ cv.slot = m
  index_inj {v w : ℕ} {r r' : VectorRecord} : s.vector v = some r → s.vector w = some r' →
    r.index = r'.index → v = w
  lt_fresh {v : ℕ} {r : VectorRecord} : s.vector v = some r → v < s.fresh ∧ r.index < s.fresh

/-- The memory before any vector has been made. -/
def empty : VectorMemory α := ⟨fun _ => none, fun _ => none, 0⟩

section Rep

variable {s s' : VectorMemory α} {q : Maps α} {v i : ℕ} {m : ℕ → Option α} {cv : CVector α}
  {r : VectorRecord} {val : α} {β : Type}

theorem rep_empty : Rep (empty : VectorMemory α) fun _ => none where
  vector_eq_none _ := rfl
  holds h := by cases h
  index_inj h := by cases h
  lt_fresh h := by cases h

theorem Holds.unique {cv' : CVector α} (h : s.Holds v cv) (h' : s.Holds v cv') : cv = cv' := by
  obtain ⟨r, hr, hmax, -, hblock⟩ := h
  obtain ⟨r', hr', hmax', -, hblock'⟩ := h'
  obtain rfl := Option.some.inj (hr.symm.trans hr')
  obtain ⟨max, index⟩ := cv
  obtain ⟨max', index'⟩ := cv'
  obtain rfl : max = max' := hmax.symm.trans hmax'
  obtain rfl : index = index' := Option.some.inj (hblock.symm.trans hblock')
  rfl

/-- The vector at an address is read. -/
theorem Holds.vectorAt (h : s.Holds v cv) : ∃ r, s.vector v = some r ∧
    Achieves (vectorAt v) (fun p s' => p = (r, cv) ∧ s' = s) s := by
  obtain ⟨r, hr, hmax, halloced, hblock⟩ := h
  refine ⟨r, hr, ?_⟩
  have hlen : cv.index.length = r.alloced := halloced.symm
  rw [VectorMemory.vectorAt, achieves_bind, achieves_get, hr]
  simp [hblock, hlen, hmax]

namespace Rep

theorem fresh (h : Rep s q) : q s.fresh = none := by
  rcases hq : q s.fresh with _ | m
  · rfl
  · obtain ⟨cv, ⟨r, hr, -⟩, -⟩ := h.holds hq
    exact absurd (h.lt_fresh hr).1 (lt_irrefl _)

/-- A vector is written, with a block that is not another one's. -/
theorem set (h : Rep s q) (hvector : s'.vector = Function.update s.vector v (some r))
    (hcv : cv.Fits) (hmax : r.max = cv.max) (halloced : r.alloced = cv.alloced)
    (hblock : s'.block r.index = some cv.index)
    (hother : ∀ w r', w ≠ v → s.vector w = some r' →
      r'.index ≠ r.index ∧ s'.block r'.index = s.block r'.index)
    (hlt : v < s'.fresh ∧ r.index < s'.fresh) (hle : s.fresh ≤ s'.fresh) :
    Rep s' (Function.update q v (some cv.slot)) where
  vector_eq_none {w} hw := by
    rcases eq_or_ne w v with rfl | hne
    · rw [Function.update_self] at hw
      cases hw
    · rw [Function.update_of_ne hne] at hw
      rw [hvector, Function.update_of_ne hne, h.vector_eq_none hw]
  holds {w m} hw := by
    rcases eq_or_ne w v with rfl | hne
    · rw [Function.update_self] at hw
      exact ⟨cv, ⟨r, by rw [hvector, Function.update_self], hmax, halloced, hblock⟩, hcv,
        Option.some.inj hw⟩
    · rw [Function.update_of_ne hne] at hw
      obtain ⟨cv', ⟨r', hr', hmax', halloced', hblock'⟩, hcv'⟩ := h.holds hw
      refine ⟨cv', ⟨r', ?_, hmax', halloced', (hother w r' hne hr').2.trans hblock'⟩, hcv'⟩
      rw [hvector, Function.update_of_ne hne, hr']
  -- Two vectors do not share a block: each has its own, and the others differ from that of `v`.
  index_inj {w w' r₁ r₂} hr₁ hr₂ hindex := by
    rw [hvector] at hr₁ hr₂
    rcases eq_or_ne w v with rfl | hne
    · rcases eq_or_ne w' w with rfl | hne'
      · rfl
      · rw [Function.update_self] at hr₁
        rw [Function.update_of_ne hne'] at hr₂
        obtain rfl := Option.some.inj hr₁
        exact absurd hindex.symm (hother w' r₂ hne' hr₂).1
    · rw [Function.update_of_ne hne] at hr₁
      rcases eq_or_ne w' v with rfl | hne'
      · rw [Function.update_self] at hr₂
        obtain rfl := Option.some.inj hr₂
        exact absurd hindex (hother w r₁ hne hr₁).1
      · rw [Function.update_of_ne hne'] at hr₂
        exact h.index_inj hr₁ hr₂ hindex
  lt_fresh {w r₁} hr₁ := by
    rw [hvector] at hr₁
    rcases eq_or_ne w v with rfl | hne
    · rw [Function.update_self] at hr₁
      exact Option.some.inj hr₁ ▸ hlt
    · rw [Function.update_of_ne hne] at hr₁
      exact (h.lt_fresh hr₁).imp (fun h => h.trans_le hle) fun h => h.trans_le hle

/-- A new vector. -/
theorem calloc (h : Rep s q) (hcv : cv.Fits) :
    Rep (s.calloc cv.max cv.alloced cv.index) (Function.update q s.fresh (some cv.slot)) := by
  refine h.set (r := ⟨cv.max, cv.alloced, s.fresh + 1⟩) rfl hcv rfl rfl (Function.update_self ..)
    (fun w r' _ hr' => ?_) ?_ ?_
  · have hlt := (h.lt_fresh hr').2
    have hne : r'.index ≠ s.fresh + 1 := by omega
    exact ⟨hne, Function.update_of_ne hne _ _⟩
  · exact ⟨Nat.lt_add_of_pos_right Nat.two_pos, Nat.lt_succ_self _⟩
  · exact Nat.le_add_right _ _

/-- A vector that has changed is written. -/
theorem write (h : Rep s q) (hr : s.vector v = some r) (hcv : cv.Fits) :
    Rep (s.write v r cv) (Function.update q v (some cv.slot)) := by
  obtain ⟨hv, hindex⟩ := h.lt_fresh hr
  have hblock : (if cv.alloced = r.alloced then r.index else s.fresh) < s.fresh + 1 := by
    split_ifs
    · omega
    · omega
  refine h.set (r := ⟨cv.max, cv.alloced, _⟩) rfl hcv rfl rfl (Function.update_self ..)
    (fun w r' hw hr' => ?_) ⟨Nat.lt_succ_of_lt hv, hblock⟩ (Nat.le_succ _)
  have hne : r'.index ≠ r.index := fun heq => hw (h.index_inj hr' hr heq)
  have hne' : r'.index ≠ if cv.alloced = r.alloced then r.index else s.fresh := by
    split_ifs
    · exact hne
    · exact (h.lt_fresh hr').2.ne
  exact ⟨hne', (Function.update_of_ne hne' _ _).trans (Function.update_of_ne hne _ _)⟩

/-- The vector at an address. -/
theorem vectorAt (h : Rep s q) (hq : q v = some m) : ∃ r cv, s.vector v = some r ∧ cv.Fits ∧
    cv.slot = m ∧ s.Holds v cv ∧
    Achieves (vectorAt v) (fun p s' => p = (r, cv) ∧ s' = s) s := by
  obtain ⟨cv, hholds, hcv, hslot⟩ := h.holds hq
  obtain ⟨r, hr, hat⟩ := hholds.vectorAt
  exact ⟨r, cv, hr, hcv, hslot, hholds, hat⟩

/-- What a function does to a vector. -/
theorem onVector (h : Rep s q) (hq : q v = some m) {f : CVector α → Option (β × CVector α)}
    {ret : β} {m' : ℕ → Option α}
    (hf : ∀ cv : CVector α, cv.Fits → cv.slot = m → s.Holds v cv →
      ∃ cv', f cv = some (ret, cv') ∧ cv'.Fits ∧ cv'.slot = m') :
    Achieves (onVector v f) (fun r s' => r = ret ∧ Rep s' (Function.update q v (some m'))) s := by
  obtain ⟨r, cv, hr, hcv, hslot, hholds, hat⟩ := h.vectorAt hq
  obtain ⟨cv', hcv', hfits, rfl⟩ := hf cv hcv hslot hholds
  rw [VectorMemory.onVector, achieves_bind]
  refine hat.mono ?_
  rintro _ _ ⟨rfl, rfl⟩
  simp only [hcv', achieves_bind, achieves_modify, achieves_pure, true_and]
  exact h.write hr hfits

theorem vectorInit (h : Rep s q) {size : ℕ} (hsize : size < 2 ^ 27) :
    Achieves (vectorInit size) (fun v s' =>
      q v = none ∧ Rep s' (Function.update q v (some fun _ => none))) s := by
  have hcalloc := h.calloc (fits_init (α := α) hsize)
  have hslot : (Mksh.vectorInit size : CVector α).slot = fun _ => none :=
    funext fun i => (fits_init hsize).slot_eq_none (Nat.zero_le i)
  rw [hslot] at hcalloc
  simp only [VectorMemory.vectorInit, achieves_bind, achieves_get, achieves_modify, achieves_pure]
  exact ⟨h.fresh, hcalloc⟩

theorem vectorCopy (h : Rep s q) (hq : q v = some m) :
    Achieves (vectorCopy v) (fun new s' =>
      q new = none ∧ Rep s' (Function.update q new (some m))) s := by
  obtain ⟨r, cv, -, hcv, rfl, -, hat⟩ := h.vectorAt hq
  rw [VectorMemory.vectorCopy, achieves_bind]
  refine hat.mono ?_
  rintro _ _ ⟨rfl, rfl⟩
  -- The size does not wrap around.
  have hsize : 8 * cv.alloced % 2 ^ 32 / 8 = cv.alloced := by
    have hlt := hcv.lt
    omega
  have htake : cv.index.take cv.alloced = cv.index := List.take_length
  simp only [achieves_bind, achieves_get, achieves_modify, achieves_pure, hsize, htake]
  exact ⟨h.fresh, h.calloc hcv⟩

theorem vectorSet (h : Rep s q) (hq : q v = some m) (hholds : s.Holds v cv)
    (hlt : vectorEmptySlot cv < 2 ^ 27) (val : α) :
    Achieves (vectorSet v val) (fun i s' => i = vectorEmptySlot cv ∧
      Rep s' (Function.update q v (some (Function.update m (vectorEmptySlot cv) (some val))))) s :=
  h.onVector hq fun cv' hcv hslot hholds' => by
    obtain rfl := hholds.unique hholds'
    obtain ⟨cv', hset, hcv', hslot'⟩ := hcv.vectorSet hlt val
    exact ⟨cv', hset, hcv', hslot'.trans (hslot ▸ rfl)⟩

theorem vectorSetIndex (h : Rep s q) (hq : q v = some m) (hi : i < 2 ^ 27) (val : α) :
    Achieves (vectorSetIndex v i val) (fun ret s' => ret = i ∧
      Rep s' (Function.update q v (some (Function.update m i (some val))))) s :=
  h.onVector hq fun cv hcv hslot _ => by
    obtain ⟨cv', hset, hcv', hslot'⟩ := hcv.vectorSetIndex hi val
    exact ⟨cv', by rw [hset, Option.map_some], hcv', hslot'.trans (hslot ▸ rfl)⟩

theorem vectorUnset (h : Rep s q) (hq : q v = some m) (i : ℕ) :
    Achieves (vectorUnset v i) (fun ret s' => ret = () ∧
      Rep s' (Function.update q v (some (Function.update m i none)))) s :=
  h.onVector hq fun cv hcv hslot _ => by
    obtain ⟨hcv', hslot'⟩ := hcv.vectorUnset i
    exact ⟨_, rfl, hcv', hslot'.trans (hslot ▸ rfl)⟩

theorem vectorLookup (h : Rep s q) (hq : q v = some m) (i : ℕ) :
    Achieves (vectorLookup v i) (fun ret s' => ret = m i ∧ Rep s' q) s := by
  obtain ⟨r, cv, -, hcv, rfl, -, hat⟩ := h.vectorAt hq
  rw [VectorMemory.vectorLookup, achieves_bind]
  refine hat.mono ?_
  rintro _ _ ⟨rfl, rfl⟩
  exact achieves_pure.2 ⟨hcv.vectorLookup i, h⟩

theorem vectorLookupEnsure (h : Rep s q) (hq : q v = some m) (hi : i < 2 ^ 27) :
    Achieves (vectorLookupEnsure v i) (fun ret s' => ret = m i ∧ Rep s' q) s := by
  have hensure : Achieves (VectorMemory.vectorLookupEnsure v i) (fun ret s' => ret = m i ∧
      Rep s' (Function.update q v (some m))) s :=
    h.onVector hq fun cv hcv hslot _ => by
      obtain ⟨cv', hlookup, hcv', hslot'⟩ := hcv.vectorLookupEnsure hi
      exact ⟨cv', by rw [hlookup, Option.map_some, hslot]; rfl, hcv', hslot'.trans hslot⟩
  rwa [← hq, Function.update_eq_self] at hensure

theorem vectorCount (h : Rep s q) (hq : q v = some m) :
    Achieves (vectorCount v) (fun n s' => n = {i | m i ≠ none}.ncard ∧ Rep s' q) s := by
  obtain ⟨r, cv, -, hcv, rfl, -, hat⟩ := h.vectorAt hq
  rw [VectorMemory.vectorCount, achieves_bind]
  refine hat.mono ?_
  rintro _ _ ⟨rfl, rfl⟩
  exact achieves_pure.2 ⟨hcv.vectorCount, h⟩

end Rep

end Rep

/-! ## Runs -/

/-- A call of one of the functions on vectors. -/
inductive Op (α : Type)
  | vectorInit (size : ℕ)
  | vectorCopy (v : ℕ)
  | vectorSet (v : ℕ) (val : α)
  | vectorSetIndex (v i : ℕ) (val : α)
  | vectorUnset (v i : ℕ)
  | vectorLookup (v i : ℕ)
  | vectorLookupEnsure (v i : ℕ)
  | vectorCount (v : ℕ)

/-- What a call returns: a vector, an index, data, nothing or a count. -/
inductive Ret (α : Type)
  | vector (v : ℕ)
  | index (i : ℕ)
  | data (val : Option α)
  | unset
  | count (n : ℕ)

/-- What the call does, and returns. -/
def Op.perform : Op α → VectorProcess α (Ret α)
  | .vectorInit size => do return .vector (← VectorMemory.vectorInit size)
  | .vectorCopy v => do return .vector (← VectorMemory.vectorCopy v)
  | .vectorSet v val => do return .index (← VectorMemory.vectorSet v val)
  | .vectorSetIndex v i val => do return .index (← VectorMemory.vectorSetIndex v i val)
  | .vectorUnset v i => do
    VectorMemory.vectorUnset v i
    return .unset
  | .vectorLookup v i => do return .data (← VectorMemory.vectorLookup v i)
  | .vectorLookupEnsure v i => do return .data (← VectorMemory.vectorLookupEnsure v i)
  | .vectorCount v => do return .count (← VectorMemory.vectorCount v)

/-- There is a vector at an address. -/
def IsVector (s : VectorMemory α) (v : ℕ) : Prop := (s.vector v).isSome

/-- The calls on vectors that are there, with sizes and indices less than `2 ^ 27`; for
    `vector_set` this is the index it uses. -/
def Op.Valid (s : VectorMemory α) : Op α → Prop
  | .vectorInit size => size < 2 ^ 27
  | .vectorCopy v => s.IsVector v
  | .vectorSet v _ => ∃ cv, s.Holds v cv ∧ vectorEmptySlot cv < 2 ^ 27
  | .vectorSetIndex v i _ => s.IsVector v ∧ i < 2 ^ 27
  | .vectorUnset v i => s.IsVector v ∧ i < 2 ^ 27
  | .vectorLookup v i => s.IsVector v ∧ i < 2 ^ 27
  | .vectorLookupEnsure v i => s.IsVector v ∧ i < 2 ^ 27
  | .vectorCount v => s.IsVector v

/-- What a call does to the maps, and what it returns. -/
inductive Spec (q : Maps α) : Op α → Ret α → Maps α → Prop
  | vectorInit {size v : ℕ} : q v = none →
      Spec q (.vectorInit size) (.vector v) (Function.update q v (some fun _ => none))
  | vectorCopy {v new : ℕ} {m : ℕ → Option α} : q v = some m → q new = none →
      Spec q (.vectorCopy v) (.vector new) (Function.update q new (some m))
  | vectorSet {v i : ℕ} {m : ℕ → Option α} {val : α} : q v = some m → IsLeastFree m i →
      Spec q (.vectorSet v val) (.index i)
        (Function.update q v (some (Function.update m i (some val))))
  | vectorSetIndex {v i : ℕ} {m : ℕ → Option α} {val : α} : q v = some m →
      Spec q (.vectorSetIndex v i val) (.index i)
        (Function.update q v (some (Function.update m i (some val))))
  | vectorUnset {v i : ℕ} {m : ℕ → Option α} : q v = some m →
      Spec q (.vectorUnset v i) .unset (Function.update q v (some (Function.update m i none)))
  | vectorLookup {v i : ℕ} {m : ℕ → Option α} : q v = some m →
      Spec q (.vectorLookup v i) (.data (m i)) q
  | vectorLookupEnsure {v i : ℕ} {m : ℕ → Option α} : q v = some m →
      Spec q (.vectorLookupEnsure v i) (.data (m i)) q
  | vectorCount {v : ℕ} {m : ℕ → Option α} : q v = some m →
      Spec q (.vectorCount v) (.count {i | m i ≠ none}.ncard) q

/-- A call that has returned. -/
structure Call (α : Type) where
  op : Op α
  ret : Ret α

/-- The calls made so far, and the memory after them. -/
inductive Run : List (Call α) → VectorMemory α → Prop
  | empty : Run [] empty
  | call {calls s ret s'} (op) : Run calls s → op.Valid s →
      op.perform.result s = some (ret, s') → Run (calls ++ [⟨op, ret⟩]) s'

/-- The maps after calls that return what their specifications say. -/
inductive Specs : List (Call α) → Maps α → Prop
  | empty : Specs [] fun _ => none
  | call {calls q op ret q'} : Specs calls q → Spec q op ret q' → Specs (calls ++ [⟨op, ret⟩]) q'

section Run

variable {s : VectorMemory α} {q : Maps α} {op : Op α} {calls : List (Call α)} {v : ℕ}
  {m : ℕ → Option α}

theorem Rep.exists_map (h : Rep s q) (hv : s.IsVector v) : ∃ m, q v = some m := by
  rcases hq : q v with _ | m
  · rw [IsVector, h.vector_eq_none hq] at hv
    cases hv
  · exact ⟨m, rfl⟩

theorem Holds.isVector {cv : CVector α} (h : s.Holds v cv) : s.IsVector v := by
  obtain ⟨r, hr, -⟩ := h
  rw [IsVector, hr, Option.isSome_some]

/-- A call returns, and does what its specification says. -/
theorem Rep.perform (h : Rep s q) (hop : op.Valid s) :
    Achieves op.perform (fun ret s' => ∃ q', Spec q op ret q' ∧ Rep s' q') s := by
  cases op with
  | vectorInit size =>
    rw [Op.perform, achieves_bind]
    refine (h.vectorInit hop).mono fun v s' hs' => achieves_pure.2 ?_
    exact ⟨_, .vectorInit hs'.1, hs'.2⟩
  | vectorCopy v =>
    obtain ⟨m, hq⟩ := h.exists_map hop
    rw [Op.perform, achieves_bind]
    refine (h.vectorCopy hq).mono fun new s' hs' => achieves_pure.2 ?_
    exact ⟨_, .vectorCopy hq hs'.1, hs'.2⟩
  | vectorSet v val =>
    obtain ⟨cv, hholds, hlt⟩ := hop
    obtain ⟨m, hq⟩ := h.exists_map hholds.isVector
    -- The slot is the least one that is free in the map.
    have hfree : IsLeastFree m (vectorEmptySlot cv) := by
      obtain ⟨cv', hholds', hcv, rfl⟩ := h.holds hq
      obtain rfl := hholds.unique hholds'
      exact hcv.isLeastFree
    rw [Op.perform, achieves_bind]
    refine (h.vectorSet hq hholds hlt val).mono ?_
    rintro _ s' ⟨rfl, hs'⟩
    exact achieves_pure.2 ⟨_, .vectorSet hq hfree, hs'⟩
  | vectorSetIndex v i val =>
    obtain ⟨m, hq⟩ := h.exists_map hop.1
    rw [Op.perform, achieves_bind]
    refine (h.vectorSetIndex hq hop.2 val).mono ?_
    rintro _ s' ⟨rfl, hs'⟩
    exact achieves_pure.2 ⟨_, .vectorSetIndex hq, hs'⟩
  | vectorUnset v i =>
    obtain ⟨m, hq⟩ := h.exists_map hop.1
    rw [Op.perform, achieves_bind]
    refine (h.vectorUnset hq i).mono ?_
    rintro _ s' ⟨rfl, hs'⟩
    exact achieves_pure.2 ⟨_, .vectorUnset hq, hs'⟩
  | vectorLookup v i =>
    obtain ⟨m, hq⟩ := h.exists_map hop.1
    rw [Op.perform, achieves_bind]
    refine (h.vectorLookup hq i).mono ?_
    rintro _ s' ⟨rfl, hs'⟩
    exact achieves_pure.2 ⟨q, .vectorLookup hq, hs'⟩
  | vectorLookupEnsure v i =>
    obtain ⟨m, hq⟩ := h.exists_map hop.1
    rw [Op.perform, achieves_bind]
    refine (h.vectorLookupEnsure hq hop.2).mono ?_
    rintro _ s' ⟨rfl, hs'⟩
    exact achieves_pure.2 ⟨q, .vectorLookupEnsure hq, hs'⟩
  | vectorCount v =>
    obtain ⟨m, hq⟩ := h.exists_map hop
    rw [Op.perform, achieves_bind]
    refine (h.vectorCount hq).mono ?_
    rintro _ s' ⟨rfl, hs'⟩
    exact achieves_pure.2 ⟨q, .vectorCount hq, hs'⟩

theorem Run.exists_rep (h : Run calls s) : ∃ q, Specs calls q ∧ Rep s q := by
  induction h with
  | empty => exact ⟨_, .empty, rep_empty⟩
  | call op _ hop hr ih =>
    obtain ⟨q, hspecs, hrep⟩ := ih
    obtain ⟨q', hspec, hrep'⟩ := (hrep.perform hop).ensures _ _ hr
    exact ⟨q', hspecs.call hspec, hrep'⟩

/-- The vector has the data of the map in its slots. -/
structure IsMap (cv : CVector α) (m : ℕ → Option α) : Prop where
  slot_eq : cv.slot = m
  finite : {i | m i ≠ none}.Finite
  max_eq : (cv.max = 0 ∧ ∀ i, m i = none) ∨
    ∃ i, cv.max = i + 1 ∧ IsGreatest {i | m i ≠ none} i
  max_le : cv.max ≤ cv.alloced
  pos : 1 ≤ cv.alloced
  slot_eq_none {i : ℕ} : cv.max ≤ i → i < cv.alloced → cv.slot i = none

theorem isMap_of_fits {cv : CVector α} (h : cv.Fits) : IsMap cv cv.slot where
  slot_eq := rfl
  finite := (Set.finite_lt_nat cv.max).subset fun _ hi => not_le.1 fun hle =>
    hi (h.slot_eq_none hle)
  max_eq := h.max_eq
  max_le := h.max_le
  pos := h.pos
  slot_eq_none hi _ := h.slot_eq_none hi

/-- The vectors are the maps that the specifications of the calls give, and every call
    returns. -/
theorem refines_run (h : Run calls s) :
    (∃ q, Specs calls q ∧ ∀ v, (q v = none → ¬s.IsVector v) ∧
      ∀ m, q v = some m → ∃ cv, s.Holds v cv ∧ IsMap cv m) ∧
    ∀ op : Op α, op.Valid s → ∃ ret s', op.perform.result s = some (ret, s') := by
  obtain ⟨q, hspecs, hrep⟩ := h.exists_rep
  refine ⟨⟨q, hspecs, fun v => ⟨fun hq => ?_, fun m hq => ?_⟩⟩, fun op hop => ?_⟩
  · rw [IsVector, hrep.vector_eq_none hq]
    exact Bool.false_ne_true
  · obtain ⟨cv, hholds, hcv, rfl⟩ := hrep.holds hq
    exact ⟨cv, hholds, isMap_of_fits hcv⟩
  · obtain ⟨ret, s', hr, -⟩ := hrep.perform hop
    exact ⟨ret, s', hr⟩

/-- A vector, a copy of it, and data that are set in the copy. -/
theorem refines_run_copy : ∃ s : VectorMemory ℕ, ∃ q, Specs [⟨.vectorInit 1, .vector 0⟩,
    ⟨.vectorCopy 0, .vector 2⟩, ⟨.vectorSetIndex 2 5 7, .index 5⟩] q ∧
    ∀ v m, q v = some m → ∃ cv, s.Holds v cv ∧ IsMap cv m := by
  have hsize : 1 < 2 ^ 27 := by decide
  have hindex : 5 < 2 ^ 27 := by decide
  have hinit := Run.empty.call (.vectorInit 1 : Op ℕ) hsize rfl
  have hcopy := hinit.call (.vectorCopy 0) rfl rfl
  have hset := hcopy.call (.vectorSetIndex 2 5 7) ⟨rfl, hindex⟩ rfl
  obtain ⟨⟨q, hspecs, hmaps⟩, -⟩ := refines_run hset
  exact ⟨_, q, hspecs, fun v => (hmaps v).2⟩

end Run

end VectorMemory

end Mksh
