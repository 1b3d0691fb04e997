import Mathlib.Algebra.Order.Group.Multiset
import Mathlib.Data.Finset.Card
import Mathlib.Data.Finset.Range
import Mksh.Lib.Ensures

/-!
# Memory

A memory of blocks, given by their addresses (`Memory`). A process on it allocates,
reads, writes and frees blocks; using a block that is not there ends it. An address is
never given out twice.

* `Holds m s`: the blocks in the memory are those of `s`, no more and no less. A memory
  that holds `0` has no block left.
* `Uses s p Q`: given the blocks `s`, the process `p` returns, and leaves blocks that
  satisfy `Q`. It needs no others, and leaves all others as they are (`Uses.frame`).
  What a process uses is determined step by step (`uses_bind`).
* `Kind`: the blocks of a kind. Using a block of another kind ends the process.
* `nodeSegment`: the nodes of a part of a doubly linked list. Those of two parts are put
  together, with the links between them (`nodeSegment_append`).
-/

universe v

/-- The blocks by their addresses, and the address that the next block gets. -/
structure Memory (B : Type) where
  block : ℕ → Option B
  fresh : ℕ

namespace Memory

open Process

variable {B α β : Type} {ε : Type v}

/-- A memory without blocks. -/
def empty : Memory B := ⟨fun _ => none, 0⟩

/-- Another content for a block, or none. -/
def set (a : ℕ) (b : Option B) (m : Memory B) : Memory B :=
  { m with block := Function.update m.block a b }

/-! ## Processes -/

/-- A new block. -/
def alloc (b : B) : Process (Memory B) ε ℕ :=
  step fun m => (m.fresh, { m.set m.fresh (some b) with fresh := m.fresh + 1 })

/-- Reading a block. -/
def load (a : ℕ) : Process (Memory B) ε B := do
  match (← get).block a with
  | none => halt
  | some b => return b

/-- Writing a block that is there. -/
def store (a : ℕ) (b : B) : Process (Memory B) ε Unit := do
  let _ ← load a
  modify (set a (some b))

/-- Freeing a block. -/
def free (a : ℕ) : Process (Memory B) ε Unit := do
  let _ ← load a
  modify (set a none)

/-! ## The blocks in a memory -/

/-- The blocks in the memory are those of `s`. -/
structure Holds (m : Memory B) (s : Multiset (ℕ × B)) : Prop where
  mem_iff {a : ℕ} {b : B} : (a, b) ∈ s ↔ m.block a = some b
  nodup : (s.map Prod.fst).Nodup
  lt_fresh {a : ℕ} {b : B} : (a, b) ∈ s → a < m.fresh

variable {m : Memory B} {s r t : Multiset (ℕ × B)} {a : ℕ} {b b' : B}

theorem holds_empty : (empty : Memory B).Holds 0 where
  mem_iff := iff_of_false (Multiset.notMem_zero _) fun h => nomatch h
  nodup := Multiset.nodup_zero
  lt_fresh h := absurd h (Multiset.notMem_zero _)

/-- A memory that holds nothing has no blocks. -/
theorem Holds.block_eq_none (h : m.Holds 0) (a : ℕ) : m.block a = none := by
  by_contra hne
  obtain ⟨b, hb⟩ := Option.ne_none_iff_exists'.1 hne
  exact Multiset.notMem_zero _ (h.mem_iff.2 hb)

/-- The address of a block is not that of another one. -/
theorem Holds.notMem (h : m.Holds ((a, b) ::ₘ s)) (b' : B) : (a, b') ∉ s := fun hmem => by
  have hnodup := h.nodup
  rw [Multiset.map_cons, Multiset.nodup_cons] at hnodup
  exact hnodup.1 (Multiset.mem_map.2 ⟨(a, b'), hmem, rfl⟩)

/-- There are no more blocks than addresses have been given out. -/
theorem Holds.card_le (h : m.Holds s) : Multiset.card s ≤ m.fresh := by
  have hsub : (⟨s.map Prod.fst, h.nodup⟩ : Finset ℕ) ⊆ Finset.range m.fresh := by
    intro a ha
    obtain ⟨⟨a, b⟩, hab, rfl⟩ := Multiset.mem_map.1 (Finset.mem_mk.1 ha)
    exact Finset.mem_range.2 (h.lt_fresh hab)
  have hcard := Finset.card_le_card hsub
  rwa [Finset.card_mk, Multiset.card_map, Finset.card_range] at hcard

/-- A new block is added to those that are held, at a fresh address. -/
theorem Holds.alloc (h : m.Holds s) (b : B) :
    Holds { m.set m.fresh (some b) with fresh := m.fresh + 1 } ((m.fresh, b) ::ₘ s) where
  mem_iff {a b'} := by
    rw [Multiset.mem_cons, h.mem_iff, Prod.mk.injEq]
    rcases eq_or_ne a m.fresh with rfl | hne
    · -- Nothing was at this address.
      have hnone : m.block m.fresh ≠ some b' := fun hb => lt_irrefl _ (h.lt_fresh (h.mem_iff.2 hb))
      simp [set, hnone, eq_comm]
    · simp [set, hne]
  nodup := by
    rw [Multiset.map_cons, Multiset.nodup_cons]
    refine ⟨fun hmem => ?_, h.nodup⟩
    obtain ⟨⟨a, b'⟩, hab, ha⟩ := Multiset.mem_map.1 hmem
    exact (h.lt_fresh hab).ne ha
  lt_fresh {a b'} hmem := by
    rcases Multiset.mem_cons.1 hmem with heq | hmem
    · cases heq
      exact Nat.lt_succ_self _
    · exact Nat.lt_succ_of_lt (h.lt_fresh hmem)

/-- A block that is held gets another content. -/
theorem Holds.store (h : m.Holds ((a, b) ::ₘ s)) (b' : B) :
    (m.set a (some b')).Holds ((a, b') ::ₘ s) where
  mem_iff {a' c} := by
    have hiff := h.mem_iff (a := a') (b := c)
    rw [Multiset.mem_cons, Prod.mk.injEq] at hiff ⊢
    rcases eq_or_ne a' a with rfl | hne
    · simp [set, h.notMem c, eq_comm]
    · simpa [set, hne] using hiff
  nodup := by simpa using h.nodup
  lt_fresh {a' c} hmem := by
    rcases Multiset.mem_cons.1 hmem with heq | hmem
    · cases heq
      exact h.lt_fresh (Multiset.mem_cons_self (a, b) s)
    · exact h.lt_fresh (Multiset.mem_cons_of_mem hmem)

/-- A block that is freed is not held any more; the others are. -/
theorem Holds.free (h : m.Holds ((a, b) ::ₘ s)) : (m.set a none).Holds s where
  mem_iff {a' c} := by
    have hiff := h.mem_iff (a := a') (b := c)
    rw [Multiset.mem_cons, Prod.mk.injEq] at hiff
    rcases eq_or_ne a' a with rfl | hne
    · simp [set, h.notMem c]
    · simpa [set, hne] using hiff
  nodup := by
    have hnodup := h.nodup
    rw [Multiset.map_cons, Multiset.nodup_cons] at hnodup
    exact hnodup.2
  lt_fresh hmem := h.lt_fresh (Multiset.mem_cons_of_mem hmem)

/-- Bringing the third of some blocks to the front. -/
theorem cons_rotate (x y z : ℕ × B) (s : Multiset (ℕ × B)) :
    x ::ₘ y ::ₘ z ::ₘ s = z ::ₘ x ::ₘ y ::ₘ s :=
  (congrArg _ (Multiset.cons_swap y z s)).trans (Multiset.cons_swap x z _)

/-- A block that is held can be read. -/
theorem Holds.achieves_load (h : m.Holds s) (hmem : (a, b) ∈ s) {Q : B → Memory B → Prop} :
    Achieves (load a : Process (Memory B) ε B) Q m ↔ Q b m := by
  rw [load, achieves_bind, achieves_get, h.mem_iff.1 hmem]
  exact achieves_pure

/-! ## What processes use -/

/-- Given the blocks `s`, the process returns, and leaves blocks that satisfy `Q`. -/
def Uses (s : Multiset (ℕ × B)) (p : Process (Memory B) ε α)
    (Q : α → Multiset (ℕ × B) → Prop) : Prop :=
  ∀ m r, Holds m (s + r) → Achieves p (fun a m' => ∃ s', Q a s' ∧ Holds m' (s' + r)) m

variable {p : Process (Memory B) ε α} {q : α → Process (Memory B) ε β}
  {Q Q' : α → Multiset (ℕ × B) → Prop} {R : β → Multiset (ℕ × B) → Prop}

/-- What is left may be weakened. -/
theorem Uses.mono (h : Uses s p Q) (hQ : ∀ a s', Q a s' → Q' a s') : Uses s p Q' :=
  fun m r hm => (h m r hm).mono fun a _ ⟨s', hs', hm'⟩ => ⟨s', hQ a s' hs', hm'⟩

theorem uses_pure {a : α} (h : Q a s) : Uses s (pure a : Process (Memory B) ε α) Q :=
  fun _ _ hm => achieves_pure.2 ⟨s, h, hm⟩

/-- The second part uses what the first one leaves. -/
theorem uses_bind (h : Uses s p fun a s' => Uses s' (q a) R) : Uses s (p >>= q) R :=
  fun m r hm => achieves_bind.2 ((h m r hm).mono fun _ m' ⟨_, hs', hm'⟩ => hs' m' r hm')

/-- Only the branch that is taken has to use the blocks. -/
theorem uses_ite {c : Prop} [Decidable c] {p' : Process (Memory B) ε α} (h : c → Uses s p Q)
    (h' : ¬c → Uses s p' Q) : Uses s (if c then p else p') Q := by
  split_ifs with hc
  · exact h hc
  · exact h' hc

/-- The blocks that a process does not need are left as they are. -/
theorem Uses.frame (h : Uses t p Q) (hs : s = t + r) (hQ : ∀ a t', Q a t' → Q' a (t' + r)) :
    Uses s p Q' := by
  intro m r' hm
  rw [hs, add_assoc] at hm
  refine (h m (r + r') hm).mono fun a m' ⟨t', ht', hm'⟩ => ⟨t' + r, hQ a t' ht', ?_⟩
  rwa [add_assoc]

/-- Allocating needs no blocks, and leaves one more. -/
theorem uses_alloc {Q : ℕ → Multiset (ℕ × B) → Prop} (h : ∀ a, Q a ((a, b) ::ₘ s)) :
    Uses s (alloc b : Process (Memory B) ε ℕ) Q := fun m r hm => by
  refine achieves_step.2 ⟨(m.fresh, b) ::ₘ s, h m.fresh, ?_⟩
  rw [Multiset.cons_add]
  exact hm.alloc b

/-- Reading a block needs it, and leaves everything. -/
theorem uses_load {Q : B → Multiset (ℕ × B) → Prop} (hmem : (a, b) ∈ s) (h : Q b s) :
    Uses s (load a : Process (Memory B) ε B) Q := fun _ _ hm =>
  (hm.achieves_load (Multiset.mem_add.2 (.inl hmem))).2 ⟨s, h, hm⟩

/-- Writing a block needs it, and leaves it with the new content. -/
theorem uses_store {Q : Unit → Multiset (ℕ × B) → Prop} (hs : s = (a, b) ::ₘ r)
    (h : Q () ((a, b') ::ₘ r)) : Uses s (store a b' : Process (Memory B) ε Unit) Q :=
  fun m r' hm => by
    rw [hs, Multiset.cons_add] at hm
    rw [store, achieves_bind, hm.achieves_load (Multiset.mem_cons_self _ _), achieves_modify]
    refine ⟨_, h, ?_⟩
    rw [Multiset.cons_add]
    exact hm.store b'

/-- Freeing a block needs it, and leaves the others. -/
theorem uses_free {Q : Unit → Multiset (ℕ × B) → Prop} (hs : s = (a, b) ::ₘ r) (h : Q () r) :
    Uses s (free a : Process (Memory B) ε Unit) Q := fun m r' hm => by
  rw [hs, Multiset.cons_add] at hm
  rw [free, achieves_bind, hm.achieves_load (Multiset.mem_cons_self _ _), achieves_modify]
  exact ⟨r, h, hm.free⟩

/-- There are no more blocks than addresses have been given out. -/
theorem uses_get {q : Memory B → Process (Memory B) ε α}
    (h : ∀ m : Memory B, Multiset.card s ≤ m.fresh → Uses s (q m) Q) :
    Uses s (get >>= q) Q := fun m r hm => by
  rw [achieves_bind, achieves_get]
  refine h m ?_ m r hm
  have hcard := hm.card_le
  rw [Multiset.card_add] at hcard
  omega

/-! ## Kinds of blocks -/

/-- The blocks of a kind are made of a `γ`. -/
structure Kind (B γ : Type) where
  block : γ → B
  content : B → Option γ
  content_block (x : γ) : content (block x) = some x

namespace Kind

variable {γ : Type} (k : Kind B γ)

/-- Reading a block of the kind. -/
def read : Option ℕ → Process (Memory B) ε γ
  | none => halt
  | some a => do
    match k.content (← load a) with
    | none => halt
    | some x => return x

/-- Changing a block of the kind. -/
def update (f : γ → γ) : Option ℕ → Process (Memory B) ε Unit
  | none => halt
  | some a => do
    let x ← k.read (some a)
    store a (k.block (f x))

variable {k} {x : γ}

/-- Reading a block of a kind gives its content. -/
theorem uses_read {Q : γ → Multiset (ℕ × B) → Prop} (hmem : (a, k.block x) ∈ s) (h : Q x s) :
    Uses s (k.read (some a) : Process (Memory B) ε γ) Q := by
  refine uses_bind (uses_load hmem ?_)
  rw [k.content_block]
  exact uses_pure h

/-- Changing a block of a kind leaves it with the content changed. -/
theorem uses_update {f : γ → γ} {Q : Unit → Multiset (ℕ × B) → Prop}
    (hs : s = (a, k.block x) ::ₘ r) (h : Q () ((a, k.block (f x)) ::ₘ r)) :
    Uses s (k.update f (some a) : Process (Memory B) ε Unit) Q :=
  uses_bind (uses_read (hs ▸ Multiset.mem_cons_self _ _) (uses_store hs h))

end Kind

end Memory

/-! # Doubly linked lists -/

section Segment

variable {B : Type*} {δ : Type v}

/-- The first node of a part, or else the one after it. -/
def firstNode (l : List (ℕ × δ)) (next : Option ℕ) : Option ℕ :=
  match l with
  | [] => next
  | (n, _) :: _ => some n

/-- The last node of a part, or else the one before it. -/
def lastNode (prev : Option ℕ) : List (ℕ × δ) → Option ℕ
  | [] => prev
  | (n, _) :: l => lastNode (some n) l

/-- The blocks of the nodes, given with their data, that come between `prev` and
    `next`. A block has the links to the next node and to the one before. -/
def nodeSegment (mk : Option ℕ → Option ℕ → δ → B) (prev : Option ℕ) :
    List (ℕ × δ) → Option ℕ → Multiset (ℕ × B)
  | [], _ => 0
  | (n, d) :: l, next => (n, mk (firstNode l next) prev d) ::ₘ nodeSegment mk (some n) l next

variable {mk : Option ℕ → Option ℕ → δ → B} {prev next : Option ℕ} {l l' : List (ℕ × δ)}

theorem firstNode_append : firstNode (l ++ l') next = firstNode l (firstNode l' next) := by
  cases l with
  | nil => rfl
  | cons c l => rfl

theorem lastNode_append : lastNode prev (l ++ l') = lastNode (lastNode prev l) l' := by
  induction l generalizing prev with
  | nil => rfl
  | cons c l ih => exact ih

/-- The nodes of two segments, one after the other, are those of both. -/
theorem nodeSegment_append : nodeSegment mk prev (l ++ l') next =
    nodeSegment mk prev l (firstNode l' next) + nodeSegment mk (lastNode prev l) l' next := by
  induction l generalizing prev with
  | nil => exact (zero_add _).symm
  | cons c l ih =>
    obtain ⟨n, d⟩ := c
    rw [List.cons_append, nodeSegment, nodeSegment, ih, firstNode_append, Multiset.cons_add,
      lastNode]

/-- There is a block for each node. -/
theorem card_nodeSegment : Multiset.card (nodeSegment mk prev l next) = l.length := by
  induction l generalizing prev with
  | nil => rfl
  | cons c l ih =>
    obtain ⟨n, d⟩ := c
    rw [nodeSegment, Multiset.card_cons, ih, List.length_cons]

end Segment
