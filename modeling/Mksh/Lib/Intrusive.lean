import Mathlib.Data.Int.Basic
import Mathlib.Data.List.Nodup
import Mathlib.Logic.Function.Basic

/-!
# Intrusive doubly linked lists

Lists whose nodes carry their own links: each node has a `next` and a `prev`
pointer, `none` for `NULL`, and a header points to the two ends and counts the
nodes. The operations write one pointer after the other, in a heap that gives
the links of every node.

`IsList h e l`: in the heap `h`, the header `e` is that of a well-formed list
with the nodes `l`, in order. Following `next` from the head and `prev` from the
tail both visit these nodes, and each once.

`AreLists h e l`: a family of lists without common nodes, in one heap. The
operations on one of them leave the others alone (`AreLists.add`,
`AreLists.addBefore`, `AreLists.link`, `AreLists.delete`).

The writes of `next` and of `prev` pointers commute (`setPrev_setNext_comm`), so it
does not matter in which order an operation makes them: a node that is put between
two others ends up linked to them (`link`).
-/

namespace Intrusive

variable {α ι : Type*}

/-- The link fields of a node. -/
@[ext]
structure Links (α : Type*) where
  next : Option α
  prev : Option α
  deriving DecidableEq

/-- The links the other way round. -/
def Links.swap (links : Links α) : Links α := ⟨links.prev, links.next⟩

/-- The links of all the nodes. -/
abbrev Heap (α : Type*) := α → Links α

/-- The header of a list. -/
structure Header (α : Type*) where
  head : Option α
  tail : Option α
  count : ℤ
  deriving DecidableEq

/-- The header of the empty list. -/
def Header.empty : Header α := ⟨none, none, 0⟩

/-! ## Operations -/

section Operations

variable [DecidableEq α]

/-- Writing the `next` pointer of a node, unless it is `NULL`. -/
def setNext (h : Heap α) : Option α → Option α → Heap α
  | none, _ => h
  | some a, next => Function.update h a { h a with next }

/-- Writing the `prev` pointer of a node, unless it is `NULL`. -/
def setPrev (h : Heap α) : Option α → Option α → Heap α
  | none, _ => h
  | some a, prev => Function.update h a { h a with prev }

/-- Adding a node at the end. -/
def add (a : α) (h : Heap α) (e : Header α) : Heap α × Header α :=
  let h := setNext h (some a) none
  let h := setPrev h (some a) e.tail
  let h := setNext h e.tail (some a)
  let head := if e.tail.isSome then e.head else some a
  (h, ⟨head, some a, e.count + 1⟩)

/-- Adding a node just before another one. -/
def addBefore (point a : α) (h : Heap α) (e : Header α) : Heap α × Header α :=
  let h := setNext h (some a) (some point)
  let h := setPrev h (some a) (h point).prev
  let prev := (h point).prev
  let h := setNext h prev (some a)
  let head := if prev.isSome then e.head else some a
  let h := setPrev h (some point) (some a)
  (h, ⟨head, e.tail, e.count + 1⟩)

/-- Putting a node between two others, one of which is `NULL` at an end. -/
def link (prev next : Option α) (a : α) (h : Heap α) (e : Header α) : Heap α × Header α :=
  let h := Function.update h a ⟨next, prev⟩
  let h := setNext h prev (some a)
  let h := setPrev h next (some a)
  let head := if prev.isSome then e.head else some a
  let tail := if next.isSome then e.tail else some a
  (h, ⟨head, tail, e.count + 1⟩)

/-- Linking the nodes around a place, one of which is `NULL` at an end, to each other. -/
def unlink (prev next : Option α) (h : Heap α) (e : Header α) : Heap α × Header α :=
  let h := setNext h prev next
  let h := setPrev h next prev
  let head := if prev.isSome then e.head else next
  let tail := if next.isSome then e.tail else prev
  (h, ⟨head, tail, e.count - 1⟩)

/-- Deleting a node. -/
def delete (a : α) (h : Heap α) (e : Header α) : Heap α × Header α :=
  let next := (h a).next
  let tail := if next.isSome then e.tail else (h a).prev
  let h := setPrev h next (h a).prev
  let prev := (h a).prev
  let head := if prev.isSome then e.head else (h a).next
  let h := setNext h prev (h a).next
  (Function.update h a ⟨none, none⟩, ⟨head, tail, e.count - 1⟩)

end Operations

/-! ## Chains -/

/-- The nodes are linked in order, from the node before them to the one after. -/
def Chain (h : Heap α) : Option α → List α → Option α → Prop
  | _, [], _ => True
  | prev, a :: l, next => h a = ⟨l.head?.or next, prev⟩ ∧ Chain h (some a) l next

variable {h h' : Heap α} {prev next : Option α} {l l' : List α} {a b point : α}

@[simp]
theorem chain_nil : Chain h prev [] next := trivial

/-- A chain of one node. -/
@[simp]
theorem chain_singleton : Chain h prev [a] next ↔ h a = ⟨next, prev⟩ := and_iff_left trivial

/-- Two chains, one after the other, each linked to the end of the other. -/
theorem chain_append : Chain h prev (l ++ l') next ↔
    Chain h prev l (l'.head?.or next) ∧ Chain h (l.getLast?.or prev) l' next := by
  induction l generalizing prev with
  | nil => simp
  | cons a l ih =>
    have hhead : (l ++ l').head?.or next = l.head?.or (l'.head?.or next) := by
      rw [List.head?_append, Option.or_assoc]
    have hlast : (a :: l).getLast?.or prev = l.getLast?.or (some a) := by
      rw [List.getLast?_cons]
      cases l.getLast? <;> rfl
    rw [List.cons_append, Chain, Chain, ih, hhead, hlast, and_assoc]

/-- A chain only depends on the links of its nodes. -/
theorem Chain.congr (hc : Chain h prev l next) (heq : ∀ a ∈ l, h' a = h a) :
    Chain h' prev l next := by
  induction l generalizing prev with
  | nil => trivial
  | cons a l ih =>
    exact ⟨(heq a List.mem_cons_self).trans hc.1,
      ih hc.2 fun b hb => heq b (List.mem_cons_of_mem a hb)⟩

variable [DecidableEq α]

/-- The links of the other nodes stay as they are. -/
@[simp]
theorem setNext_of_ne {o : Option α} (ho : o ≠ some b) : setNext h o next b = h b := by
  rcases o with _ | a
  · rfl
  · exact Function.update_of_ne (fun hb => ho (congrArg some hb.symm)) _ _

/-- The links of the other nodes stay as they are. -/
@[simp]
theorem setPrev_of_ne {o : Option α} (ho : o ≠ some b) : setPrev h o prev b = h b := by
  rcases o with _ | a
  · rfl
  · exact Function.update_of_ne (fun hb => ho (congrArg some hb.symm)) _ _

@[simp]
theorem setNext_self : setNext h (some a) next a = ⟨next, (h a).prev⟩ := Function.update_self ..

@[simp]
theorem setPrev_self : setPrev h (some a) prev a = ⟨(h a).next, prev⟩ := Function.update_self ..

@[simp]
theorem setNext_none (next : Option α) : setNext h none next = h := rfl

@[simp]
theorem setPrev_none (prev : Option α) : setPrev h none prev = h := rfl

/-- Links forward and backward are assigned in either order. -/
theorem setPrev_setNext_comm (o o' next prev : Option α) :
    setPrev (setNext h o next) o' prev = setNext (setPrev h o' prev) o next := by
  rcases o with _ | a
  · rfl
  rcases o' with _ | b
  · rfl
  ext c : 1
  rcases eq_or_ne a b with rfl | hab
  · simp [setNext, setPrev]
  · simp only [setNext, setPrev, Function.update_of_ne hab, Function.update_of_ne hab.symm]
    exact congrFun (Function.update_comm hab _ _ h) c

/-- Links of different nodes are assigned in either order. -/
theorem setPrev_comm {o o' : Option α} (ho : o ≠ o') (prev prev' : Option α) :
    setPrev (setPrev h o prev) o' prev' = setPrev (setPrev h o' prev') o prev := by
  rcases o with _ | a
  · rfl
  rcases o' with _ | b
  · rfl
  have hab : a ≠ b := fun h => ho (congrArg some h)
  simp only [setPrev, Function.update_of_ne hab, Function.update_of_ne hab.symm]
  exact Function.update_comm hab _ _ h

/-- Assigning to the link of a node that has just been assigned. -/
@[simp]
theorem setNext_update (links : Links α) (next : Option α) :
    setNext (Function.update h a links) (some a) next = Function.update h a ⟨next, links.prev⟩ := by
  rw [setNext, Function.update_self, Function.update_idem]

/-- Assigning to the link of a node that has just been assigned. -/
@[simp]
theorem setPrev_update (links : Links α) (prev : Option α) :
    setPrev (Function.update h a links) (some a) prev = Function.update h a ⟨links.next, prev⟩ := by
  rw [setPrev, Function.update_self, Function.update_idem]

@[simp]
theorem setPrev_setNext_update (links : Links α) (o next prev : Option α) :
    setPrev (setNext (Function.update h a links) o next) (some a) prev =
      setNext (Function.update h a ⟨links.next, prev⟩) o next := by
  rw [setPrev_setNext_comm, setPrev_update]

/-- Linking the last node to another one. -/
theorem Chain.setNext (hc : Chain h prev l next) (hl : l.Nodup) (next' : Option α) :
    Chain (setNext h l.getLast? next') prev l next' := by
  rcases List.eq_nil_or_concat l with rfl | ⟨l, a, rfl⟩
  · trivial
  rw [List.concat_eq_append] at hc hl ⊢
  obtain ⟨hc, ha⟩ := chain_append.1 hc
  have hnot : a ∉ l := fun hmem => (List.nodup_append.1 hl).2.2 a hmem a List.mem_cons_self rfl
  rw [List.getLast?_concat, chain_append]
  refine ⟨hc.congr fun b hb => setNext_of_ne ?_, ?_⟩
  · rintro ⟨⟩
    exact hnot hb
  · rw [chain_singleton] at ha ⊢
    rw [setNext_self, ha]

/-- Linking the first node to another one. -/
theorem Chain.setPrev (hc : Chain h prev l next) (hl : l.Nodup) (prev' : Option α) :
    Chain (setPrev h l.head? prev') prev' l next := by
  rcases l with _ | ⟨a, l⟩
  · trivial
  refine ⟨?_, hc.2.congr fun b hb => setPrev_of_ne ?_⟩
  · rw [List.head?_cons, setPrev_self, hc.1]
  · rintro ⟨⟩
    exact (List.nodup_cons.1 hl).1 hb

/-! ## Lists -/

/-- The header is that of a well-formed list with the nodes `l`. -/
structure IsList (h : Heap α) (e : Header α) (l : List α) : Prop where
  head : e.head = l.head?
  tail : e.tail = l.getLast?
  count : e.count = l.length
  nodup : l.Nodup
  chain : Chain h none l none

variable {e : Header α}

omit [DecidableEq α] in
theorem isList_empty (h : Heap α) : IsList h .empty [] := ⟨rfl, rfl, rfl, .nil, trivial⟩

omit [DecidableEq α] in

/-- Only the links of its own nodes matter to a list. -/
theorem IsList.congr (hl : IsList h e l) (heq : ∀ a ∈ l, h' a = h a) : IsList h' e l :=
  ⟨hl.head, hl.tail, hl.count, hl.nodup, hl.chain.congr heq⟩

omit [DecidableEq α] in
/-- The links of a node are those of its place. -/
theorem IsList.links (hl : IsList h e (l ++ a :: l')) : h a = ⟨l'.head?, l.getLast?⟩ := by
  have ha := (chain_append.1 hl.chain).2.1
  rwa [Option.or_none, Option.or_none] at ha

/-- The nodes from one on, following `next`, up to a number of them. -/
def nodes (h : Heap α) : ℕ → Option α → List α
  | n + 1, some a => a :: nodes h n (h a).next
  | _, _ => []

omit [DecidableEq α] in

/-- Following the links of a chain, with enough fuel, gives its nodes. -/
theorem Chain.nodes (hc : Chain h prev l none) {n : ℕ} (hn : l.length ≤ n) :
    nodes h n l.head? = l := by
  induction l generalizing prev n with
  | nil =>
    cases n
    · rfl
    · rfl
  | cons a l ih =>
    rcases n with _ | n
    · exact absurd hn (Nat.not_succ_le_zero _)
    · rw [List.head?_cons, Intrusive.nodes, hc.1, Option.or_none,
        ih hc.2 (Nat.le_of_succ_le_succ hn)]

omit [DecidableEq α] in

/-- Following the links of a list, with enough fuel, gives its nodes. -/
theorem IsList.nodes (hl : IsList h e l) {n : ℕ} (hn : l.length ≤ n) : nodes h n e.head = l := by
  rw [hl.head, hl.chain.nodes hn]

omit [DecidableEq α] in

/-- With the links swapped, a chain is one the other way round. -/
theorem chain_reverse : Chain (fun a => (h a).swap) next l.reverse prev ↔ Chain h prev l next := by
  induction l generalizing prev with
  | nil => exact Iff.rfl
  | cons a l ih =>
    have hlinks : (h a).swap = ⟨prev, l.head?.or next⟩ ↔ h a = ⟨l.head?.or next, prev⟩ := by
      rw [Links.ext_iff, Links.ext_iff]
      exact and_comm
    rw [List.reverse_cons, chain_append, chain_singleton, List.head?_singleton,
      List.getLast?_reverse, Chain, and_comm, ← hlinks]
    exact and_congr_right fun _ => ih

omit [DecidableEq α] in
/-- Following `prev` from the tail. -/
theorem IsList.nodes_swap (hl : IsList h e l) {n : ℕ} (hn : l.length ≤ n) :
    Intrusive.nodes (fun a => (h a).swap) n e.tail = l.reverse := by
  rw [hl.tail, ← List.head?_reverse, (chain_reverse.2 hl.chain).nodes]
  rwa [List.length_reverse]

/-! ### Adding -/

theorem link_fst (prev next : Option α) (a : α) (h : Heap α) (e : Header α) :
    (link prev next a h e).1 =
      setPrev (setNext (Function.update h a ⟨next, prev⟩) prev (some a)) next (some a) := rfl

/-- Linking a node touches only the nodes next to it. -/
theorem link_of_ne (hb : b ≠ a) (hprev : prev ≠ some b) (hnext : next ≠ some b) :
    (link prev next a h e).1 b = h b := by
  rw [link_fst, setPrev_of_ne hnext, setNext_of_ne hprev, Function.update_of_ne hb]

/-- A node that is linked between two parts of a list is in the list, there. -/
theorem IsList.link (hl : IsList h e (l ++ l')) (ha : a ∉ l ++ l') :
    IsList (link l.getLast? l'.head? a h e).1 (link l.getLast? l'.head? a h e).2
      (l ++ a :: l') := by
  have hal : a ∉ l := fun h => ha (List.mem_append_left _ h)
  have hal' : a ∉ l' := fun h => ha (List.mem_append_right _ h)
  have hlast : l.getLast? ≠ some a := fun h => hal (List.mem_of_getLast? h)
  have hhead : l'.head? ≠ some a := fun h => hal' (List.mem_of_head? h)
  obtain ⟨hnl, hnl', hdisj⟩ := List.nodup_append.1 hl.nodup
  refine ⟨?_, ?_, ?_, List.nodup_middle.2 (List.nodup_cons.2 ⟨ha, hl.nodup⟩), ?_⟩
  · rcases l with _ | ⟨b, l⟩
    · rfl
    · rw [Intrusive.link, List.getLast?_cons]
      exact hl.head
  · have htail := hl.tail
    rcases l' with _ | ⟨b, l'⟩
    · simp [Intrusive.link]
    · simp [Intrusive.link, htail]
  · have hcount := hl.count
    simp only [Intrusive.link, List.length_append, List.length_cons, Int.natCast_add] at hcount ⊢
    omega
  · -- Each half of the chain is changed at the new node and at one end. The other writes are at
    -- nodes of the other half.
    obtain ⟨hc, hc'⟩ := chain_append.1 hl.chain
    rw [link_fst, chain_append]
    refine ⟨?_, ?_, ?_⟩
    · have hc := hc.congr fun b hb =>
        Function.update_of_ne (ne_of_mem_of_not_mem hb hal) ⟨l'.head?, l.getLast?⟩ h
      refine (hc.setNext hnl (some a)).congr fun b hb => setPrev_of_ne fun hhead => ?_
      exact hdisj b hb b (List.mem_of_head? hhead) rfl
    · rw [setPrev_of_ne hhead, setNext_of_ne hlast, Function.update_self, Option.or_none,
        Option.or_none]
    · rw [setPrev_setNext_comm]
      have hc' := hc'.congr fun b hb =>
        Function.update_of_ne (ne_of_mem_of_not_mem hb hal') ⟨l'.head?, l.getLast?⟩ h
      refine (hc'.setPrev hnl' (some a)).congr fun b hb => setNext_of_ne fun hlast => ?_
      exact hdisj b (List.mem_of_getLast? hlast) b hb rfl

/-- Adding at the end is putting a node after the last one. -/
theorem add_eq (a : α) (h : Heap α) (e : Header α) : add a h e = link e.tail none a h e := by
  have hself : setPrev (setNext h (some a) none) (some a) e.tail =
      Function.update h a ⟨none, e.tail⟩ := setPrev_update ..
  rw [add, link, hself]
  rfl

/-- Adding before a node is putting one between that and the node before it. -/
theorem addBefore_eq (hne : point ≠ a) :
    addBefore point a h e = link (h point).prev (some point) a h e := by
  have ha : some a ≠ some point := fun h => hne (Option.some.inj h).symm
  have hself : setPrev (setNext h (some a) (some point)) (some a) (h point).prev =
      Function.update h a ⟨some point, (h point).prev⟩ := setPrev_update ..
  simp only [addBefore, setNext_of_ne ha, setPrev_of_ne ha, hself]
  rfl

/-! ### Deleting -/

/-- Unlinking a node touches only the nodes next to it. -/
theorem unlink_of_ne (hnext : next ≠ some b) (hprev : prev ≠ some b) :
    (unlink prev next h e).1 b = h b := by
  change setPrev (setNext h prev next) next prev b = h b
  rw [setPrev_of_ne hnext, setNext_of_ne hprev]

/-- The nodes around `a` are linked to each other. -/
theorem IsList.unlink (hl : IsList h e (l ++ a :: l')) :
    IsList (unlink (h a).prev (h a).next h e).1 (unlink (h a).prev (h a).next h e).2
      (l ++ l') := by
  obtain ⟨hnot, hnodup⟩ := List.nodup_cons.1 (List.nodup_middle.1 hl.nodup)
  obtain ⟨hnl, hnl', hdisj⟩ := List.nodup_append.1 hnodup
  rw [hl.links]
  refine ⟨?_, ?_, ?_, hnodup, ?_⟩
  · rw [Intrusive.unlink, hl.head]
    rcases l with _ | ⟨b, l⟩
    · rfl
    · rw [List.getLast?_cons]
      rfl
  · rw [Intrusive.unlink, hl.tail]
    rcases l' with _ | ⟨b, l'⟩
    · simp
    · simp
  · have hcount := hl.count
    simp only [Intrusive.unlink, List.length_append, List.length_cons, Int.natCast_add] at hcount ⊢
    omega
  · -- The neighbours are joined, each of which is in its own half of the chain.
    obtain ⟨hc, -, hc'⟩ := chain_append.1 hl.chain
    rw [chain_append, Option.or_none, Option.or_none]
    refine ⟨?_, ?_⟩
    · refine (hc.setNext hnl l'.head?).congr fun b hb => setPrev_of_ne fun hhead => ?_
      exact hdisj b hb b (List.mem_of_head? hhead) rfl
    · rw [Intrusive.unlink, setPrev_setNext_comm]
      refine (hc'.setPrev hnl' l.getLast?).congr fun b hb => setNext_of_ne fun hlast => ?_
      exact hdisj b (List.mem_of_getLast? hlast) b hb rfl

/-- A node that is deleted is unlinked, and its own links are cleared. -/
theorem delete_eq (hne : (h a).next ≠ some a) :
    delete a h e = (Function.update (unlink (h a).prev (h a).next h e).1 a ⟨none, none⟩,
      (unlink (h a).prev (h a).next h e).2) := by
  simp only [delete, unlink, setPrev_of_ne hne, setPrev_setNext_comm]

/-- A node that has been deleted is linked to no other. -/
theorem delete_self (a : α) (h : Heap α) (e : Header α) : (delete a h e).1 a = ⟨none, none⟩ :=
  Function.update_self ..

omit [DecidableEq α] in

/-- No node of a list is its own successor. -/
theorem IsList.next_ne (hl : IsList h e (l ++ a :: l')) : (h a).next ≠ some a := by
  rw [hl.links]
  intro hhead
  have hnot := (List.nodup_cons.1 (List.nodup_middle.1 hl.nodup)).1
  exact hnot (List.mem_append_right _ (List.mem_of_head? hhead))

/-! ## Adding a node again -/

omit [DecidableEq α] in
/-- Nothing comes before the first node. -/
theorem IsList.prev_head (hl : IsList h e l) (ha : e.head = some a) : (h a).prev = none := by
  obtain ⟨l', rfl⟩ := List.head?_eq_some_iff.1 (hl.head.symm.trans ha)
  rw [show h a = ⟨l'.head?, [].getLast?⟩ from hl.links, List.getLast?_nil]

/-- A node that is added after itself is linked to itself. -/
theorem add_of_tail (ha : e.tail = some a) :
    add a h e = (Function.update h a ⟨some a, some a⟩, ⟨e.head, some a, e.count + 1⟩) := by
  rw [add_eq, Intrusive.link, ha]
  simp only [setNext_update, setPrev_none, Option.isSome_some, Option.isSome_none, if_true,
    Bool.false_eq_true, if_false]

/-- The only node, when it is added a second time, is no longer in a well-formed list. -/
theorem not_isList_add (hl : IsList h e [a]) (l : List α) :
    ¬IsList (add a h e).1 (add a h e).2 l := by
  have htail : e.tail = some a := hl.tail
  have hhead : e.head = some a := hl.head
  rw [add_of_tail htail]
  intro h'
  have hprev : (Function.update h a ⟨some a, some a⟩ a).prev = none := h'.prev_head hhead
  rw [Function.update_self] at hprev
  cases hprev

/-- A node with another one before it stays at the head when it is deleted. -/
theorem delete_head (hprev : (h a).prev ≠ none) : (delete a h e).2.head = e.head := by
  have hset : (setPrev h (h a).next (h a).prev a).prev = (h a).prev := by
    by_cases hne : (h a).next = some a
    · rw [hne, setPrev_self]
    · rw [setPrev_of_ne hne]
  refine if_pos ?_
  rw [hset]
  exact Option.isSome_iff_ne_none.2 hprev

/-! ## Families of lists -/

/-- Well-formed lists in one heap, no two of which have a node in common. -/
structure AreLists (h : Heap α) (e : ι → Header α) (l : ι → List α) : Prop where
  isList (i : ι) : IsList h (e i) (l i)
  disjoint {i j : ι} : i ≠ j → ∀ a ∈ l i, a ∉ l j

section Family

variable [DecidableEq ι] {e : ι → Header α} {l : ι → List α} {l₁ l₂ : List α} {i : ι}

omit [DecidableEq α] in
/-- One of the lists changes, by operations on its own nodes and on new ones. -/
theorem AreLists.update (hl : AreLists h e l) {e' : Header α} (hl' : IsList h' e' l₁)
    (hnew : ∀ a ∈ l₁, ∀ j ≠ i, a ∉ l j) (hframe : ∀ j ≠ i, ∀ a ∈ l j, h' a = h a) :
    AreLists h' (Function.update e i e') (Function.update l i l₁) where
  isList j := by
    rcases eq_or_ne j i with rfl | hj
    · rwa [Function.update_self, Function.update_self]
    · rw [Function.update_of_ne hj, Function.update_of_ne hj]
      exact (hl.isList j).congr (hframe j hj)
  disjoint {j k} hjk a ha := by
    rcases eq_or_ne j i with rfl | hj
    · rw [Function.update_self] at ha
      rw [Function.update_of_ne hjk.symm]
      exact hnew a ha k hjk.symm
    · rw [Function.update_of_ne hj] at ha
      rcases eq_or_ne k i with rfl | hk
      · rw [Function.update_self]
        exact fun hmem => hnew a hmem j hj ha
      · rw [Function.update_of_ne hk]
        exact hl.disjoint hjk a ha

/-- Linking a node into one of the lists leaves the others. -/
theorem AreLists.link (hl : AreLists h e l) (ha : ∀ j, a ∉ l j) (hi : l i = l₁ ++ l₂) :
    AreLists (link l₁.getLast? l₂.head? a h (e i)).1
      (Function.update e i (link l₁.getLast? l₂.head? a h (e i)).2)
      (Function.update l i (l₁ ++ a :: l₂)) := by
  have hli := hl.isList i
  have hai := ha i
  rw [hi] at hli hai
  refine hl.update (hli.link hai) (fun b hb j hj => ?_) fun j hj b hb => ?_
  · have hmem : b = a ∨ b ∈ l i := by
      rw [hi]
      simp only [List.mem_append, List.mem_cons] at hb ⊢
      tauto
    rcases hmem with rfl | hmem
    · exact ha j
    · exact hl.disjoint hj.symm b hmem
  · have hnot : b ∉ l i := hl.disjoint hj b hb
    rw [hi, List.mem_append, not_or] at hnot
    exact link_of_ne (ne_of_mem_of_not_mem hb (ha j))
      (fun hlast => hnot.1 (List.mem_of_getLast? hlast))
      fun hhead => hnot.2 (List.mem_of_head? hhead)

/-- A node is added at the end of one of the lists. -/
theorem AreLists.add (hl : AreLists h e l) (ha : ∀ j, a ∉ l j) (i : ι) :
    AreLists (add a h (e i)).1 (Function.update e i (add a h (e i)).2)
      (Function.update l i (l i ++ [a])) := by
  have hlink := hl.link ha (List.append_nil (l i)).symm
  rw [add_eq, (hl.isList i).tail]
  exact hlink

/-- A node is added before another one of its list. -/
theorem AreLists.addBefore (hl : AreLists h e l) (ha : ∀ j, a ∉ l j)
    (hi : l i = l₁ ++ point :: l₂) :
    AreLists (addBefore point a h (e i)).1 (Function.update e i (addBefore point a h (e i)).2)
      (Function.update l i (l₁ ++ a :: point :: l₂)) := by
  have hli := hl.isList i
  have hne : point ≠ a := fun h => ha i (by simp [hi, h])
  rw [hi] at hli
  rw [addBefore_eq hne, hli.links]
  exact hl.link ha hi

/-- Unlinking a node of one of the lists leaves the others. -/
theorem AreLists.unlink (hl : AreLists h e l) (hi : l i = l₁ ++ a :: l₂) :
    AreLists (unlink (h a).prev (h a).next h (e i)).1
      (Function.update e i (unlink (h a).prev (h a).next h (e i)).2)
      (Function.update l i (l₁ ++ l₂)) := by
  have hli := hl.isList i
  rw [hi] at hli
  have hmem {b : α} (hb : b ∈ l₁ ++ l₂) : b ∈ l i := by
    rw [hi]
    simp only [List.mem_append, List.mem_cons] at hb ⊢
    tauto
  refine hl.update hli.unlink (fun b hb j hj => hl.disjoint hj.symm b (hmem hb)) fun j hj b hb => ?_
  have hother {c : α} (hc : c ∈ l₁ ++ l₂) : c ≠ b := fun h => hl.disjoint hj b hb (h ▸ hmem hc)
  rw [hli.links]
  exact unlink_of_ne
    (fun h => hother (List.mem_append_right _ (List.mem_of_head? h)) rfl)
    fun h => hother (List.mem_append_left _ (List.mem_of_getLast? h)) rfl

/-- A node is deleted from its list. -/
theorem AreLists.delete (hl : AreLists h e l) (hi : l i = l₁ ++ a :: l₂) :
    AreLists (delete a h (e i)).1 (Function.update e i (delete a h (e i)).2)
      (Function.update l i (l₁ ++ l₂)) := by
  have hli := hl.isList i
  rw [hi] at hli
  have hnot := (List.nodup_cons.1 (List.nodup_middle.1 hli.nodup)).1
  have ha : a ∈ l i := by simp [hi]
  have hunlink := hl.unlink hi
  rw [delete_eq hli.next_ne]
  refine ⟨fun j => (hunlink.isList j).congr fun b hb => Function.update_of_ne ?_ _ _,
    hunlink.disjoint⟩
  rcases eq_or_ne j i with rfl | hj
  · rw [Function.update_self] at hb
    exact ne_of_mem_of_not_mem hb hnot
  · rw [Function.update_of_ne hj] at hb
    exact ne_of_mem_of_not_mem hb fun hmem => hl.disjoint hj a hmem ha

end Family

end Intrusive
