import Mathlib.Tactic.Abel
import Mksh.Cmd.Heap

/-!
# Lists of pointers

What the functions on the lists do to their blocks. The data of a list are pointers to
what it lists: given by the nodes and the addresses of some items. Adding one appends it
(`uses_listnodeAdd`), a loop finds the first one of a kind (`uses_listLoop`), and if the
data can be freed, deleting the list leaves nothing (`uses_listDelete`).
-/

namespace Mksh

namespace Heap

open Process Memory

/-- A node with its links and its data. -/
def nodeOf (next prev : Option ℕ) (data : ℕ) : Block := .node ⟨next, prev, some data⟩

/-- The list at an address, given the nodes with their data. -/
def listOf (del : Del) (cells : List (ℕ × ℕ)) : Block :=
  .list ⟨firstNode cells none, lastNode none cells, UInt32.ofNat cells.length, some del⟩

/-- The blocks of a list, those of what it lists apart. -/
def listBlocks (a : ℕ) (del : Del) (cells : List (ℕ × ℕ)) : Multiset (ℕ × Block) :=
  (a, listOf del cells) ::ₘ nodeSegment nodeOf none cells none

theorem listOf_nil (del : Del) : listOf del [] = .list ⟨none, none, 0, some del⟩ := rfl

variable {s : Multiset (ℕ × Block)} {a d n : ℕ} {del : Del} {cells : List (ℕ × ℕ)}
  {prev : Option ℕ} {str : Option ℕ}

theorem uses_new {b : Block} {Q : Option ℕ → Multiset (ℕ × Block) → Prop}
    (h : ∀ a, Q (some a) ((a, b) ::ₘ s)) : Uses s (new b) Q :=
  uses_bind (uses_alloc fun a => uses_pure (h a))

/-! ## Adding -/

/-- Adding to a list allocates a node, and links it at the end. -/
theorem uses_listnodeAdd (a d : ℕ) (del : Del) (cells : List (ℕ × ℕ))
    {Q : Unit → Multiset (ℕ × Block) → Prop}
    (h : ∀ n, Q () (listBlocks a del (cells ++ [(n, d)]))) :
    Uses (listBlocks a del cells) (listnodeAdd (some a) (some d)) Q := by
  refine uses_bind (uses_new fun n => uses_bind (Kind.uses_update rfl ?_))
  refine uses_bind (Kind.uses_read (k := listKind)
    (Multiset.mem_cons_of_mem (Multiset.mem_cons_self _ _)) ?_)
  refine uses_bind (Kind.uses_update rfl ?_)
  rcases List.eq_nil_or_concat' cells with rfl | ⟨l, ⟨t, e⟩, rfl⟩
  · -- The only node is the first one as well.
    refine uses_bind (Kind.uses_update (k := listKind) (Multiset.cons_swap _ _ _) ?_)
    refine uses_bind (Kind.uses_update rfl ?_)
    exact Kind.uses_update rfl (h n)
  · have htail : lastNode none (l ++ [(t, e)]) = some t := lastNode_append
    have hfirst : firstNode (l ++ [(t, e)] ++ [(n, d)]) none = firstNode (l ++ [(t, e)]) none := by
      rw [firstNode_append, firstNode_append, firstNode_append]
      rfl
    have hnodes (next : Option ℕ) : nodeSegment nodeOf none (l ++ [(t, e)]) next =
        (t, nodeOf next (lastNode none l) e) ::ₘ nodeSegment nodeOf none l (some t) := by
      rw [nodeSegment_append, add_comm]
      rfl
    have hnew : nodeSegment nodeOf none (l ++ [(t, e)] ++ [(n, d)]) none =
        (n, nodeOf none (some t) d) ::ₘ (t, nodeOf (some n) (lastNode none l) e) ::ₘ
          nodeSegment nodeOf none l (some t) := by
      rw [nodeSegment_append, htail, add_comm]
      exact congrArg _ (hnodes (some n))
    have hcount : UInt32.ofNat (l ++ [(t, e)] ++ [(n, d)]).length =
        UInt32.ofNat (l ++ [(t, e)]).length + 1 := by
      rw [List.length_append]
      exact UInt32.ofNat_add _ _
    have hlist := h n
    rw [listBlocks, listOf, hfirst, lastNode_append, hcount, hnew] at hlist
    dsimp only
    rw [htail, listBlocks, hnodes none]
    refine uses_bind (Kind.uses_update (k := nodeKind) (x := ⟨none, lastNode none l, some e⟩)
      (cons_rotate _ _ _ _) ?_)
    refine uses_bind (Kind.uses_update (k := listKind) (cons_rotate _ _ _ _) ?_)
    refine Kind.uses_update rfl ?_
    rwa [Multiset.cons_swap (n, _)] at hlist

section Items

variable {ι : Type} {node addr : ι → ℕ} {items : List ι}

/-! ## Finding -/

/-- The first item that satisfies `p`. -/
theorem uses_listLoop {body : Option ℕ → HeapProcess (Option ℕ)} {p : ι → Bool}
    {Q : Option ℕ → Multiset (ℕ × Block) → Prop}
    (hnodes : nodeSegment nodeOf prev (items.map fun i => (node i, addr i)) none ⊆ s)
    (hbody : ∀ i ∈ items, Uses s (body (some (addr i)))
      fun ret s' => ret = (if p i then some (addr i) else none) ∧ s' = s)
    (hn : items.length ≤ n) (h : Q ((items.find? p).map addr) s) :
    Uses s (listLoop body n (firstNode (items.map fun i => (node i, addr i)) none)) Q := by
  -- The induction is on what is left of the list; the body leaves the memory as it is.
  induction items generalizing prev n with
  | nil =>
    cases n with
    | zero => exact uses_pure h
    | succ n => exact uses_pure h
  | cons i items ih =>
    obtain ⟨n, rfl⟩ := Nat.exists_eq_succ_of_ne_zero (Nat.ne_zero_of_lt hn)
    have hnode := hnodes (Multiset.mem_cons_self _ _)
    refine uses_bind (Kind.uses_read (k := nodeKind) hnode ?_)
    refine uses_bind ((hbody i List.mem_cons_self).mono ?_)
    rintro ret _ ⟨rfl, rfl⟩
    rw [List.find?_cons] at h
    -- The loop returns at the first element that the body finds.
    cases hp : p i with
    | true =>
      rw [hp] at h
      exact uses_pure h
    | false =>
      rw [hp] at h
      refine uses_bind (Kind.uses_read (k := nodeKind) hnode ?_)
      exact ih (fun x hx => hnodes (Multiset.mem_cons_of_mem hx))
        (fun j hj => hbody j (List.mem_cons_of_mem i hj)) (Nat.le_of_succ_le_succ hn) h

/-! ## Deleting -/

variable {call : Del → Option ℕ → HeapProcess Unit} {blocks : ι → Multiset (ℕ × Block)}

/-- The items listed, with their blocks. -/
def itemBlocks (blocks : ι → Multiset (ℕ × Block)) (items : List ι) : Multiset (ℕ × Block) :=
  (items.map blocks).sum

theorem itemBlocks_nil : itemBlocks blocks [] = 0 := rfl

theorem itemBlocks_cons (i : ι) : itemBlocks blocks (i :: items) =
    blocks i + itemBlocks blocks items := List.sum_cons

/-- The blocks of two parts are those of both. -/
theorem itemBlocks_append (l l' : List ι) : itemBlocks blocks (l ++ l') =
    itemBlocks blocks l + itemBlocks blocks l' := by
  rw [itemBlocks, List.map_append, List.sum_append]
  rfl

/-- The loop frees the nodes, and with `del` the blocks of the data, each once. -/
theorem uses_listDeleteLoop {l : ListBlock} (hdel : l.del = some del)
    (hfree : ∀ i ∈ items, Uses (blocks i) (call del (some (addr i))) fun _ s' => s' = 0)
    (hn : items.length ≤ n) :
    Uses ((a, .list l) ::ₘ (nodeSegment nodeOf prev (items.map fun i => (node i, addr i)) none +
        itemBlocks blocks items))
      (listDeleteLoop call (some a) n (firstNode (items.map fun i => (node i, addr i)) none))
      fun _ s' => s' = {(a, .list l)} := by
  induction items generalizing prev n with
  | nil =>
    cases n with
    | zero => exact uses_pure rfl
    | succ n => exact uses_pure rfl
  | cons i items ih =>
    obtain ⟨n, rfl⟩ := Nat.exists_eq_succ_of_ne_zero (Nat.ne_zero_of_lt hn)
    -- The rest of the list is reached from a node that is freed already: its successor is read
    -- before.
    have hrest := @ih n (some (node i)) (fun j hj => hfree j (List.mem_cons_of_mem i hj))
      (Nat.le_of_succ_le_succ hn)
    refine uses_bind (Kind.uses_read (k := nodeKind)
      (x := ⟨firstNode (items.map fun i => (node i, addr i)) none, prev, some (addr i)⟩)
      (Multiset.mem_cons_of_mem (Multiset.mem_add.2 (.inl (Multiset.mem_cons_self _ _)))) ?_)
    refine uses_bind (Kind.uses_read (k := listKind) (Multiset.mem_cons_self _ _) ?_)
    rw [hdel]
    -- The deletion of the element uses its own blocks only. The node and the rest are the frame.
    refine uses_bind ((hfree i List.mem_cons_self).frame (r := (node i,
      nodeOf (firstNode (items.map fun i => (node i, addr i)) none) prev (addr i)) ::ₘ
        (a, .list l) ::ₘ (nodeSegment nodeOf (some (node i))
          (items.map fun i => (node i, addr i)) none + itemBlocks blocks items)) ?_ ?_)
    · rw [List.map_cons, nodeSegment, itemBlocks_cons]
      simp only [← Multiset.singleton_add]
      abel
    · rintro _ _ rfl
      rw [zero_add]
      exact uses_bind (uses_free rfl hrest)

/-- When what is listed can be freed, nothing is left. -/
theorem uses_listDelete
    (hfree : ∀ i ∈ items, Uses (blocks i) (call del (some (addr i))) fun _ s' => s' = 0) :
    Uses (listBlocks a del (items.map fun i => (node i, addr i)) + itemBlocks blocks items)
      (listDelete call (some a)) fun _ s' => s' = 0 := by
  rw [listBlocks, Multiset.cons_add]
  refine uses_bind (Kind.uses_read (k := listKind) (Multiset.mem_cons_self _ _) ?_)
  refine uses_get fun m hm => ?_
  have hlen : items.length ≤ m.fresh := by
    rw [Multiset.card_cons, Multiset.card_add, card_nodeSegment, List.length_map] at hm
    omega
  refine uses_bind ((uses_listDeleteLoop rfl hfree hlen).mono ?_)
  rintro _ _ rfl
  exact uses_free rfl rfl

end Items

end Heap

end Mksh
