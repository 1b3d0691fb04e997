import Mksh.Linklist.Nodes

/-!
# Lists as sequences

`Rep cmp s q c`: the memory `s` represents the sequences `q`, which give the nodes of
each list with their data, in order, and the lists have the counts `c`. Each function
does to a represented memory what its specification does to the sequences
(`Rep.listnodeAddOld` to `Rep.listDeleteAllNode`), and to the count what it does.

Five of the functions add a node. They leave the same memory, in which the node has
been put between two others (`Lists.insert`), whatever the order of their writes.
-/

namespace Mksh

open Process Intrusive

variable {ι α D : Type} [DecidableEq ι]

/-! ## Sequences -/

/-- The nodes of the lists, in order, each with its data, and the address of the next
    one. -/
structure Sequences (ι α : Type) where
  list : ι → List (ℕ × α)
  fresh : ℕ

namespace Sequences

variable (q : Sequences ι α)

/-- The nodes of a list, in order. -/
def addresses (i : ι) : List ℕ := (q.list i).map Prod.fst

/-- A list changes, with new nodes. -/
def setList (i : ι) (l : List (ℕ × α)) (new : ℕ) : Sequences ι α :=
  ⟨Function.update q.list i l, q.fresh + new⟩

@[simp]
theorem list_setList (i : ι) (l : List (ℕ × α)) (new : ℕ) :
    (q.setList i l new).list = Function.update q.list i l := rfl

theorem setList_self (i : ι) : q.setList i (q.list i) 0 = q := by
  rw [setList, Function.update_eq_self, Nat.add_zero]

theorem setList_setList (i : ι) (l l' : List (ℕ × α)) (new new' : ℕ) :
    (q.setList i l new).setList i l' new' = q.setList i l' (new + new') := by
  rw [setList, setList, setList, Function.update_idem, Nat.add_assoc]

theorem addresses_setList (i : ι) (l : List (ℕ × α)) (new : ℕ) :
    (q.setList i l new).addresses = Function.update q.addresses i (l.map Prod.fst) :=
  funext fun j => Function.apply_update (fun _ => List.map Prod.fst) q.list i l j

end Sequences

/-- Putting a node before another one. -/
def insertBefore (point : ℕ) (e : ℕ × α) : List (ℕ × α) → List (ℕ × α)
  | [] => []
  | x :: l => if x.1 = point then e :: x :: l else x :: insertBefore point e l

/-- Putting a node after another one. -/
def insertAfter (point : ℕ) (e : ℕ × α) : List (ℕ × α) → List (ℕ × α)
  | [] => []
  | x :: l => if x.1 = point then x :: e :: l else x :: insertAfter point e l

/-- The comparison of the data of nodes. -/
def nodeCmp (cmp : Option (α → α → ℤ)) : Option (ℕ × α → ℕ × α → ℤ) :=
  cmp.map fun cmp e e' => cmp e.2 e'.2

/-- Putting new nodes with the given data to their places, one after the other. -/
def addSortAll (cmp : Option (α → α → ℤ)) : ℕ → List α → List (ℕ × α) → List (ℕ × α)
  | _, [], l => l
  | fresh, val :: vals, l =>
    addSortAll cmp (fresh + 1) vals (listnodeAddSort (nodeCmp cmp) (fresh, val) l)

section Sequences

variable {e x : ℕ × α} {l l₁ l₂ : List (ℕ × α)} {point : ℕ}

/-- An entry is put before the point, where that stands once. -/
theorem insertBefore_append (h : x.1 ∉ l₁.map Prod.fst) :
    insertBefore x.1 e (l₁ ++ x :: l₂) = l₁ ++ e :: x :: l₂ := by
  induction l₁ with
  | nil => exact if_pos rfl
  | cons y l₁ ih =>
    rw [List.map_cons, List.mem_cons, not_or] at h
    rw [List.cons_append, insertBefore, if_neg (Ne.symm h.1), ih h.2, List.cons_append]

/-- An entry is put after the point. -/
theorem insertAfter_append (h : x.1 ∉ l₁.map Prod.fst) :
    insertAfter x.1 e (l₁ ++ x :: l₂) = l₁ ++ x :: e :: l₂ := by
  induction l₁ with
  | nil => exact if_pos rfl
  | cons y l₁ ih =>
    rw [List.map_cons, List.mem_cons, not_or] at h
    rw [List.cons_append, insertAfter, if_neg (Ne.symm h.1), ih h.2, List.cons_append]

/-- A node is put before the first greater one. -/
theorem addSortLoop_append {cmp : α → α → ℤ} {val x : α} {l₁ l₂ : List α}
    (h : ∀ y ∈ l₁, ¬cmp val y < 0) (hx : cmp val x < 0) :
    addSortLoop cmp val (l₁ ++ x :: l₂) = l₁ ++ val :: x :: l₂ := by
  induction l₁ with
  | nil => exact if_pos hx
  | cons y l₁ ih =>
    rw [List.forall_mem_cons] at h
    rw [List.cons_append, addSortLoop, if_neg h.1, ih h.2, List.cons_append]

/-- A value with no greater one in the list is put at the end. -/
theorem addSortLoop_eq_concat {cmp : α → α → ℤ} {val : α} {l : List α}
    (h : ∀ y ∈ l, ¬cmp val y < 0) : addSortLoop cmp val l = l ++ [val] := by
  induction l with
  | nil => rfl
  | cons y l ih =>
    rw [List.forall_mem_cons] at h
    rw [addSortLoop, if_neg h.1, ih h.2, List.cons_append]

end Sequences

/-! ## Steps in memory -/

/-- The header of a list, with the number of its nodes. -/
def LinkList.header (list : LinkList α D) (l : List (ℕ × α)) : Header ℕ :=
  ⟨list.head, list.tail, l.length⟩

namespace Lists

variable {s : Lists ι α D} {i : ι} {a c : ℕ} {val : α} {prev next : Option ℕ}

section Primitives

variable {Q : ℕ → Lists ι α D → Prop} {Q' : Option ℕ → Lists ι α D → Prop}
  {R : Unit → Lists ι α D → Prop}

omit [DecidableEq ι] in

/-- A pointer is good if its node is not freed. -/
@[simp]
theorem achieves_nodeAt : Achieves (nodeAt (some a)) Q s ↔ (s.data a).isSome ∧ Q a s := by
  rw [nodeAt, achieves_bind, achieves_get, achieves_ite]
  split_ifs with h
  · simp [h]
  · simp [h]

omit [DecidableEq ι] in
@[simp]
theorem achieves_getNext :
    Achieves (getNext (some a)) Q' s ↔ (s.data a).isSome ∧ Q' (s.links a).next s := by
  simp [getNext]

omit [DecidableEq ι] in
@[simp]
theorem achieves_getPrev :
    Achieves (getPrev (some a)) Q' s ↔ (s.data a).isSome ∧ Q' (s.links a).prev s := by
  simp [getPrev]

omit [DecidableEq ι] in
@[simp]
theorem achieves_putNext : Achieves (putNext (some a) next) R s ↔
    (s.data a).isSome ∧ R () (s.setLinks (setNext s.links (some a) next)) := by
  simp [putNext]

omit [DecidableEq ι] in
@[simp]
theorem achieves_putPrev : Achieves (putPrev (some a) prev) R s ↔
    (s.data a).isSome ∧ R () (s.setLinks (setPrev s.links (some a) prev)) := by
  simp [putPrev]

omit [DecidableEq ι] in
@[simp]
theorem achieves_listnodeFree :
    Achieves (listnodeFree (some a)) R s ↔ (s.data a).isSome ∧ R () (s.free a) := by
  simp [listnodeFree]

omit [DecidableEq ι] in
theorem achieves_getData {S : α → Lists ι α D → Prop} (h : s.data a = some val) :
    Achieves (getData (some a)) S s ↔ S val s := by
  simp [getData, h]

end Primitives

/-- The memory after a node has been put between two others. -/
def insert (s : Lists ι α D) (i : ι) (prev next : Option ℕ) (val : α) (count : UInt32) :
    Lists ι α D :=
  let r := link prev next s.fresh s.links ((s.list i).header [])
  { list := Function.update s.list i
      { s.list i with head := r.2.head, tail := r.2.tail, count },
    links := r.1,
    data := Function.update s.data s.fresh (some val),
    fresh := s.fresh + 1 }

/-- A pointer to a node that is there, or `NULL`. -/
def Points (s : Lists ι α D) (node : Option ℕ) : Prop :=
  ∀ a ∈ node, (s.data a).isSome ∧ a ≠ s.fresh

/-- `listnode_add` links the node behind the tail. -/
theorem achieves_listnodeAddOld (hprev : s.Points (s.list i).tail)
    (hnone : (s.list i).head = none ↔ (s.list i).tail = none) :
    Achieves (listnodeAddOld i val)
      (fun _ s' => s' = s.insert i (s.list i).tail none val ((s.list i).count + 1)) s := by
  rcases htail : (s.list i).tail with _ | p
  · simp [listnodeAddOld, listnodeNew, getList, putHead, putTail, incCount, achieves_ite, alloc,
      setLinks, setList, insert, link, LinkList.header, htail, hnone]
  · have hp := hprev p htail
    simp [listnodeAddOld, listnodeNew, getList, putHead, putTail, incCount, achieves_ite, alloc,
      setLinks, setList, insert, link, LinkList.header, htail, hnone, hp]

/-- `list_add_node_prev` links the node before the given one. -/
theorem achieves_listAddNodePrev (hprev : s.Points (s.links c).prev) (hc : s.Points (some c)) :
    Achieves (listAddNodePrev i (some c) val) (fun _ s' =>
      s' = s.insert i (s.links c).prev (some c) val ((s.list i).count + 1)) s := by
  obtain ⟨hcd, hcf⟩ := hc c rfl
  rcases hp : (s.links c).prev with _ | p
  · simp [listAddNodePrev, listnodeNew, putHead, incCount, achieves_ite, alloc, setLinks,
      setList, insert, link, LinkList.header, hp, hcd, hcf]
  · obtain ⟨hpd, hpf⟩ := hprev p hp
    simp [listAddNodePrev, listnodeNew, incCount, achieves_ite, alloc, setLinks, setList,
      insert, link, LinkList.header, hp, hcd, hcf, hpd, hpf]

/-- `list_add_node_next` links the node after the given one. -/
theorem achieves_listAddNodeNext (hnext : s.Points (s.links c).next) (hc : s.Points (some c)) :
    Achieves (listAddNodeNext i (some c) val) (fun _ s' =>
      s' = s.insert i (some c) (s.links c).next val ((s.list i).count + 1)) s := by
  obtain ⟨hcd, hcf⟩ := hc c rfl
  rcases hn : (s.links c).next with _ | n
  · simp [listAddNodeNext, listnodeNew, putTail, incCount, achieves_ite, alloc, setLinks,
      setList, insert, link, LinkList.header, hn, hcd, hcf]
  · obtain ⟨hnd, hnf⟩ := hnext n hn
    simp [listAddNodeNext, listnodeNew, incCount, achieves_ite, alloc, setLinks, setList,
      insert, link, LinkList.header, hn, hcd, hcf, hnd, hnf, ← setPrev_setNext_comm]

/-- `listnode_add_after` does so too, but leaves the count as it is. -/
theorem achieves_listnodeAddAfter (hnext : s.Points (s.links c).next) (hc : s.Points (some c)) :
    Achieves (listnodeAddAfter i (some c) val) (fun _ s' =>
      s' = s.insert i (some c) (s.links c).next val (s.list i).count) s := by
  obtain ⟨hcd, hcf⟩ := hc c rfl
  rcases hn : (s.links c).next with _ | n
  · simp [listnodeAddAfter, listnodeNew, getList, putTail, achieves_ite, alloc, setLinks,
      setList, insert, link, LinkList.header, hn, hcd, hcf]
  · obtain ⟨hnd, hnf⟩ := hnext n hn
    have hne : some n ≠ some s.fresh := fun h => hnf (Option.some.inj h)
    simp [listnodeAddAfter, listnodeNew, getList, achieves_ite, alloc, setLinks, insert, link,
      LinkList.header, hn,
      hcd, hcf, hnd, hnf, ← setPrev_setNext_comm, setPrev_comm hne]

/-- Without a node it links the new one before the head. -/
theorem achieves_listnodeAddAfter_none (hnext : s.Points (s.list i).head) :
    Achieves (listnodeAddAfter i none val) (fun _ s' =>
      s' = s.insert i none (s.list i).head val (s.list i).count) s := by
  rcases hn : (s.list i).head with _ | n
  · simp [listnodeAddAfter, listnodeNew, getList, putHead, putTail, achieves_ite, alloc, setLinks,
      setList, insert, link, LinkList.header, hn]
  · obtain ⟨hnd, hnf⟩ := hnext n hn
    have hne : some n ≠ some s.fresh := fun h => hnf (Option.some.inj h)
    simp [listnodeAddAfter, listnodeNew, getList, putHead, achieves_ite, alloc, setLinks, setList,
      insert, link,
      LinkList.header, hn, hnd, hnf, ← setPrev_setNext_comm, setPrev_comm hne]

omit [DecidableEq ι] in
/-- The search for the first node whose data satisfy `p`. -/
theorem achieves_findNode (p : α → Bool) {fuel : ℕ} {l : List (ℕ × α)}
    (hc : Chain s.links prev (l.map Prod.fst) none) (hdata : ∀ e ∈ l, s.data e.1 = some e.2)
    (hfuel : l.length ≤ fuel) :
    Achieves (findNode p fuel (l.map Prod.fst).head?)
      (fun r s' => s' = s ∧ r = (l.find? fun e => p e.2).map Prod.fst) s := by
  induction l generalizing prev fuel with
  | nil =>
    cases fuel
    · exact achieves_pure.2 ⟨rfl, rfl⟩
    · exact achieves_pure.2 ⟨rfl, rfl⟩
  | cons e l ih =>
    rcases fuel with _ | fuel
    · exact absurd hfuel (Nat.not_succ_le_zero _)
    obtain ⟨hlinks, hc⟩ := hc
    rw [List.forall_mem_cons] at hdata
    rw [List.map_cons, List.head?_cons, findNode, achieves_bind, achieves_getData hdata.1,
      achieves_ite, List.find?_cons]
    split_ifs with hp
    · rw [hp]
      exact achieves_pure.2 ⟨rfl, rfl⟩
    · rw [Bool.not_eq_true] at hp
      rw [hp, achieves_bind, achieves_getNext, hdata.1, hlinks, Option.or_none]
      exact ⟨rfl, ih hc hdata.2 (Nat.le_of_succ_le_succ hfuel)⟩

/-- Where a greater value is found, the node is linked before it. -/
theorem achieves_listnodeAddSort_before
    (hfind : Achieves (findGreater (s.list i) val) (fun r s' => s' = s.alloc val ∧ r = some c)
      (s.alloc val))
    (hprev : s.Points (s.links c).prev) (hc : s.Points (some c)) :
    Achieves (listnodeAddSort i val) (fun _ s' =>
      s' = s.insert i (s.links c).prev (some c) val ((s.list i).count + 1)) s := by
  obtain ⟨hcd, hcf⟩ := hc c rfl
  simp only [listnodeAddSort, listnodeNew, getList, achieves_bind, achieves_get, achieves_modify,
    achieves_pure]
  refine hfind.mono ?_
  rintro _ _ ⟨rfl, rfl⟩
  rcases hp : (s.links c).prev with _ | p
  · simp [putHead, incCount, alloc, setLinks, setList, insert, link, LinkList.header, hp, hcd, hcf]
  · obtain ⟨hpd, hpf⟩ := hprev p hp
    simp [incCount, alloc, setLinks, setList, insert, link, LinkList.header, hp, hcd, hcf, hpd,
      hpf]

/-- Else, it is linked behind the tail. -/
theorem achieves_listnodeAddSort_append
    (hfind : Achieves (findGreater (s.list i) val) (fun r s' => s' = s.alloc val ∧ r = none)
      (s.alloc val))
    (hprev : s.Points (s.list i).tail) :
    Achieves (listnodeAddSort i val) (fun _ s' =>
      s' = s.insert i (s.list i).tail none val ((s.list i).count + 1)) s := by
  simp only [listnodeAddSort, listnodeNew, getList, achieves_bind, achieves_get, achieves_modify,
    achieves_pure]
  refine hfind.mono ?_
  rintro _ _ ⟨rfl, rfl⟩
  rcases htail : (s.list i).tail with _ | p
  · simp [putHead, putTail, incCount, alloc, setLinks, setList, insert, link, LinkList.header,
      htail]
  · obtain ⟨hpd, hpf⟩ := hprev p htail
    simp [putTail, incCount, alloc, setLinks, setList, insert, link, LinkList.header, htail, hpd,
      hpf]

/-- The memory after a node has been unlinked and freed. -/
def remove (s : Lists ι α D) (i : ι) (node : ℕ) (count : UInt32) : Lists ι α D :=
  let r := unlink (s.links node).prev (s.links node).next s.links ((s.list i).header [])
  { s with list := Function.update s.list i
             { s.list i with head := r.2.head, tail := r.2.tail, count },
           links := r.1,
           data := Function.update s.data node none }

/-- Deleting a node joins its neighbours, and frees it. -/
theorem achieves_listDeleteNode (ha : s.Points (some a)) (hprev : s.Points (s.links a).prev)
    (hnext : s.Points (s.links a).next) :
    Achieves (listDeleteNode i (some a))
      (fun _ s' => s' = s.remove i a ((s.list i).count - 1)) s := by
  obtain ⟨had, -⟩ := ha a rfl
  rcases hp : (s.links a).prev with _ | p
  · rcases hn : (s.links a).next with _ | n
    · simp [listDeleteNode, putHead, putTail, decCount, achieves_ite, setList, free, remove,
        unlink, LinkList.header, hp, hn, had]
    · obtain ⟨hnd, -⟩ := hnext n hn
      simp [listDeleteNode, putHead, decCount, achieves_ite, setLinks, setList, free, remove,
        unlink, LinkList.header, hp, hn, had, hnd]
  · obtain ⟨hpd, -⟩ := hprev p hp
    rcases hn : (s.links a).next with _ | n
    · simp [listDeleteNode, putTail, decCount, achieves_ite, setLinks, setList, free, remove,
        unlink, LinkList.header, hp, hn, had, hpd]
    · obtain ⟨hnd, -⟩ := hnext n hn
      simp [listDeleteNode, decCount, achieves_ite, setLinks, setList, free, remove, unlink,
        LinkList.header, hp, hn, had, hpd, hnd]

omit [DecidableEq ι] in
/-- Freeing the nodes from one on. -/
theorem achieves_listDeleteAllNodeLoop (del : Option D) {fuel : ℕ} {l : List ℕ}
    (hc : Chain s.links prev l none) (hnodup : l.Nodup) (hdata : ∀ a ∈ l, (s.data a).isSome)
    (hfuel : l.length ≤ fuel) :
    Achieves (listDeleteAllNodeLoop del fuel l.head?) (fun _ s' => s'.list = s.list ∧
      s'.links = s.links ∧ s'.fresh = s.fresh ∧ ∀ a ∉ l, s'.data a = s.data a) s := by
  -- The induction is on the nodes from the current one on; those before it are freed.
  induction l generalizing s prev fuel with
  | nil =>
    cases fuel
    · exact achieves_pure.2 ⟨rfl, rfl, rfl, fun _ _ => rfl⟩
    · exact achieves_pure.2 ⟨rfl, rfl, rfl, fun _ _ => rfl⟩
  | cons a l ih =>
    rcases fuel with _ | fuel
    · exact absurd hfuel (Nat.not_succ_le_zero _)
    obtain ⟨hlinks, hc⟩ := hc
    obtain ⟨hnot, hnodup⟩ := List.nodup_cons.1 hnodup
    rw [List.forall_mem_cons] at hdata
    obtain ⟨val, hval⟩ := Option.isSome_iff_exists.1 hdata.1
    have hdata' : ∀ b ∈ l, ((s.free a).data b).isSome := by
      intro b hb
      have hfree : (s.free a).data b = s.data b :=
        Function.update_of_ne (ne_of_mem_of_not_mem hb hnot) _ _
      rw [hfree]
      exact hdata.2 b hb
    have hc' : Chain (s.free a).links (some a) l none := hc
    have hrest := ih hc' hnodup hdata' (Nat.le_of_succ_le_succ hfuel)
    have hafter : Achieves (listDeleteAllNodeLoop del fuel l.head?) (fun _ s' => s'.list = s.list ∧
        s'.links = s.links ∧ s'.fresh = s.fresh ∧ ∀ b ∉ a :: l, s'.data b = s.data b)
        (s.free a) := by
      refine hrest.mono ?_
      rintro _ s' ⟨hlist, hlinks', hfresh, hframe⟩
      refine ⟨hlist, hlinks', hfresh, fun b hb => ?_⟩
      rw [List.mem_cons, not_or] at hb
      exact (hframe b hb.2).trans (Function.update_of_ne hb.1 _ _)
    -- The next node is read before this one is freed.
    rw [List.head?_cons, listDeleteAllNodeLoop, achieves_bind, achieves_getNext, achieves_bind,
      achieves_getData hval, hlinks, Option.or_none]
    refine ⟨hdata.1, ?_⟩
    cases del with
    | none => exact achieves_bind.2 (achieves_listnodeFree.2 ⟨hdata.1, hafter⟩)
    | some del =>
      exact achieves_bind.2 (achieves_emit.2 (achieves_bind.2
        (achieves_listnodeFree.2 ⟨hdata.1, hafter⟩)))

/-- Deleting all nodes walks along the list and frees each, by induction on it. -/
theorem achieves_listDeleteAllNode {l : List ℕ} (hhead : (s.list i).head = l.head?)
    (hc : Chain s.links none l none) (hnodup : l.Nodup) (hdata : ∀ a ∈ l, (s.data a).isSome)
    (hlength : l.length ≤ s.fresh) :
    Achieves (listDeleteAllNode i) (fun _ s' =>
      s'.list = Function.update s.list i ⟨none, none, 0, (s.list i).cmp, (s.list i).del⟩ ∧
      s'.links = s.links ∧ s'.fresh = s.fresh ∧ ∀ a ∉ l, s'.data a = s.data a) s := by
  have hloop := achieves_listDeleteAllNodeLoop (s.list i).del hc hnodup hdata hlength
  rw [listDeleteAllNode, achieves_bind, getList, achieves_bind, achieves_get, achieves_pure,
    achieves_bind, achieves_get, achieves_bind, hhead]
  refine hloop.mono ?_
  rintro _ s' ⟨hlist, hrest⟩
  simp only [putHead, putTail, clearCount, achieves_bind, achieves_modify]
  exact ⟨by simp [setList, hlist], hrest⟩

/-! ## Represented sequences -/

/-- The memory represents the sequences; the lists have the counts `c`. -/
structure Rep (cmp : ι → Option (α → α → ℤ)) (s : Lists ι α D) (q : Sequences ι α)
    (c : ι → UInt32) : Prop where
  areLists : AreLists s.links (fun i => (s.list i).header (q.list i)) q.addresses
  data {i : ι} {e : ℕ × α} : e ∈ q.list i → s.data e.1 = some e.2
  lt_fresh {i : ι} {e : ℕ × α} : e ∈ q.list i → e.1 < q.fresh
  fresh : s.fresh = q.fresh
  count (i : ι) : (s.list i).count = c i
  cmp (i : ι) : (s.list i).cmp = cmp i

namespace Rep

variable {cmp : ι → Option (α → α → ℤ)} {s : Lists ι α D} {q : Sequences ι α} {c : ι → UInt32}
  {i j : ι} {a : ℕ} {val : α} {e : ℕ × α} {l l₁ l₂ : List (ℕ × α)}

omit [DecidableEq ι] in

/-- The header and the links of a list describe its addresses. -/
theorem isList (h : Rep cmp s q c) (i : ι) :
    IsList s.links ((s.list i).header (q.list i)) (q.addresses i) := h.areLists.isList i

omit [DecidableEq ι] in
theorem head (h : Rep cmp s q c) (i : ι) : (s.list i).head = (q.addresses i).head? :=
  (h.isList i).head

omit [DecidableEq ι] in
theorem tail (h : Rep cmp s q c) (i : ι) : (s.list i).tail = (q.addresses i).getLast? :=
  (h.isList i).tail

omit [DecidableEq ι] in

/-- The next address is in no list. -/
theorem notMem_fresh (h : Rep cmp s q c) (i : ι) : s.fresh ∉ q.addresses i := by
  intro hmem
  obtain ⟨e, he, heq⟩ := List.mem_map.1 hmem
  exact (h.lt_fresh he).ne (heq.trans h.fresh)

omit [DecidableEq ι] in

/-- The addresses of a list are those of nodes. -/
theorem points (h : Rep cmp s q c) {node : Option ℕ} (hnode : ∀ a ∈ node, a ∈ q.addresses i) :
    s.Points node := by
  intro a ha
  obtain ⟨e, he, rfl⟩ := List.mem_map.1 (hnode a ha)
  exact ⟨by rw [h.data he, Option.isSome_some], (h.fresh ▸ h.lt_fresh he).ne⟩

omit [DecidableEq ι] in

/-- A list has at most as many nodes as were allocated. -/
theorem length_le (h : Rep cmp s q c) (i : ι) : (q.list i).length ≤ s.fresh := by
  have hsub : q.addresses i ⊆ List.range s.fresh := by
    intro a ha
    obtain ⟨e, he, rfl⟩ := List.mem_map.1 ha
    exact List.mem_range.2 (h.fresh ▸ h.lt_fresh he)
  have hle := (List.subperm_of_subset (h.isList i).nodup hsub).length_le
  rwa [Sequences.addresses, List.length_map, List.length_range] at hle

omit [DecidableEq ι] in
/-- The links of a node are those of its place. -/
theorem links (h : Rep cmp s q c) (hi : q.list i = l₁ ++ e :: l₂) :
    s.links e.1 = ⟨(l₂.map Prod.fst).head?, (l₁.map Prod.fst).getLast?⟩ := by
  have hl := h.isList i
  rw [Sequences.addresses, hi, List.map_append, List.map_cons] at hl
  exact hl.links

omit [DecidableEq ι] in
/-- The nodes of a place are there. -/
theorem points_place (h : Rep cmp s q c) (hi : q.list i = l₁ ++ l₂) :
    s.Points (l₁.map Prod.fst).getLast? ∧ s.Points (l₂.map Prod.fst).head? := by
  have haddr : q.addresses i = l₁.map Prod.fst ++ l₂.map Prod.fst := by
    rw [Sequences.addresses, hi, List.map_append]
  exact ⟨h.points fun a ha => haddr ▸ List.mem_append_left _ (List.mem_of_getLast? ha),
    h.points fun a ha => haddr ▸ List.mem_append_right _ (List.mem_of_head? ha)⟩

/-- One of the lists changes. -/
theorem update (h : Rep cmp s q c) {s' : Lists ι α D} {list' : LinkList α D} {new : ℕ}
    (hlist : s'.list = Function.update s.list i list') (hcmp : list'.cmp = (s.list i).cmp)
    (hareLists : AreLists s'.links
      (Function.update (fun j => (s.list j).header (q.list j)) i (list'.header l))
      (Function.update q.addresses i (l.map Prod.fst)))
    (hdata : ∀ e ∈ l, s'.data e.1 = some e.2 ∧ e.1 < q.fresh + new)
    (hother : ∀ j ≠ i, ∀ e ∈ q.list j, s'.data e.1 = s.data e.1)
    (hfresh : s'.fresh = s.fresh + new) :
    Rep cmp s' (q.setList i l new) (Function.update c i list'.count) where
  areLists := by
    -- Every field is that of the list `i` after the update, or of another list before it.
    have hheader : (fun j => (s'.list j).header ((q.setList i l new).list j)) =
        Function.update (fun j => (s.list j).header (q.list j)) i (list'.header l) := by
      funext j
      rcases eq_or_ne j i with rfl | hj
      · simp [hlist]
      · simp [hlist, hj]
    rw [hheader, Sequences.addresses_setList]
    exact hareLists
  data {j e} he := by
    rcases eq_or_ne j i with rfl | hj
    · rw [Sequences.list_setList, Function.update_self] at he
      exact (hdata e he).1
    · rw [Sequences.list_setList, Function.update_of_ne hj] at he
      rw [hother j hj e he, h.data he]
  lt_fresh {j e} he := by
    rcases eq_or_ne j i with rfl | hj
    · rw [Sequences.list_setList, Function.update_self] at he
      exact (hdata e he).2
    · rw [Sequences.list_setList, Function.update_of_ne hj] at he
      exact Nat.lt_add_right new (h.lt_fresh he)
  fresh := by rw [hfresh, h.fresh, Sequences.setList]
  count j := by
    rcases eq_or_ne j i with rfl | hj
    · rw [hlist, Function.update_self, Function.update_self]
    · rw [hlist, Function.update_of_ne hj, Function.update_of_ne hj, h.count]
  cmp j := by
    rcases eq_or_ne j i with rfl | hj
    · rw [hlist, Function.update_self, hcmp, h.cmp]
    · rw [hlist, Function.update_of_ne hj, h.cmp]

/-- A node is put between two others. -/
theorem insert (h : Rep cmp s q c) (hi : q.list i = l₁ ++ l₂) (val : α) (count : UInt32) :
    Rep cmp (s.insert i (l₁.map Prod.fst).getLast? (l₂.map Prod.fst).head? val count)
      (q.setList i (l₁ ++ (q.fresh, val) :: l₂) 1) (Function.update c i count) := by
  have haddr : q.addresses i = l₁.map Prod.fst ++ l₂.map Prod.fst := by
    rw [Sequences.addresses, hi, List.map_append]
  have hframe {j : ι} {e : ℕ × α} (he : e ∈ q.list j) :
      Function.update s.data s.fresh (some val) e.1 = s.data e.1 :=
    Function.update_of_ne (h.fresh ▸ h.lt_fresh he).ne _ _
  have hlist : (s.insert i (l₁.map Prod.fst).getLast? (l₂.map Prod.fst).head? val count).list =
      Function.update s.list i _ := rfl
  refine h.update hlist rfl ?_ (fun e he => ?_) (fun j _ e he => hframe he) rfl
  · have hlink := h.areLists.link h.notMem_fresh haddr
    convert hlink using 2
    · rfl
    · simp [Intrusive.link, LinkList.header, hi]
      omega
    · simp [h.fresh]
  · have hmem : e = (q.fresh, val) ∨ e ∈ q.list i := by
      rw [hi]
      simp only [List.mem_append, List.mem_cons] at he ⊢
      tauto
    rcases hmem with rfl | hmem
    · exact ⟨by simp [Lists.insert, h.fresh], Nat.lt_succ_self q.fresh⟩
    · exact ⟨(hframe hmem).trans (h.data hmem), Nat.lt_succ_of_lt (h.lt_fresh hmem)⟩

/-! ### Adding -/

/-- A list is now the sequence `l`, with one more node, and has the given count. -/
abbrev Gets (cmp : ι → Option (α → α → ℤ)) (q : Sequences ι α) (c : ι → UInt32) (i : ι)
    (l : List (ℕ × α)) (count : UInt32) (_ : Unit) (s' : Lists ι α D) : Prop :=
  Rep cmp s' (q.setList i l 1) (Function.update c i count)

/-- The memory in which a node has been put to its place. -/
theorem gets_of_insert (h : Rep cmp s q c) (hi : q.list i = l₁ ++ l₂) {count : UInt32}
    {p : ListProcess ι α D Unit} {prev next : Option ℕ}
    (hprev : prev = (l₁.map Prod.fst).getLast?) (hnext : next = (l₂.map Prod.fst).head?)
    (hp : Achieves p (fun _ s' => s' = s.insert i prev next val count) s) :
    Achieves p (Gets cmp q c i (l₁ ++ (q.fresh, val) :: l₂) count) s := by
  refine hp.mono ?_
  rintro _ _ rfl
  rw [hprev, hnext]
  exact h.insert hi val count

/-- Over the representation, `listnode_add` appends. -/
theorem listnodeAddOld (h : Rep cmp s q c) (i : ι) (val : α) :
    Achieves (listnodeAddOld i val)
      (Gets cmp q c i (q.list i ++ [(q.fresh, val)]) (c i + 1)) s := by
  have hi := (List.append_nil (q.list i)).symm
  have hprev := (h.points_place hi).1
  have hnone : (s.list i).head = none ↔ (s.list i).tail = none := by
    rw [h.head, h.tail, List.head?_eq_none_iff, List.getLast?_eq_none_iff]
  rw [← h.count]
  refine h.gets_of_insert hi (h.tail i) rfl (achieves_listnodeAddOld ?_ hnone)
  rwa [h.tail]

/-- Adding a node before another one. -/
theorem listAddNodePrev (h : Rep cmp s q c) (hi : q.list i = l₁ ++ e :: l₂) (val : α) :
    Achieves (listAddNodePrev i (some e.1) val)
      (Gets cmp q c i (l₁ ++ (q.fresh, val) :: e :: l₂) (c i + 1)) s := by
  obtain ⟨hprev, he⟩ := h.points_place hi
  have hlinks := congrArg Links.prev (h.links hi)
  rw [← h.count]
  refine h.gets_of_insert hi hlinks rfl (achieves_listAddNodePrev ?_ he)
  rwa [hlinks]

omit [DecidableEq ι] in
/-- The place after a node. -/
theorem place_after (h : Rep cmp s q c) (hi : q.list i = l₁ ++ e :: l₂) :
    q.list i = (l₁ ++ [e]) ++ l₂ ∧ s.Points (some e.1) ∧ s.Points (s.links e.1).next ∧
      some e.1 = ((l₁ ++ [e]).map Prod.fst).getLast? ∧
      (s.links e.1).next = (l₂.map Prod.fst).head? := by
  have hi' : q.list i = (l₁ ++ [e]) ++ l₂ := by rw [hi, List.append_assoc, List.singleton_append]
  have hlinks := congrArg Links.next (h.links hi)
  refine ⟨hi', (h.points_place hi).2, ?_, by simp, hlinks⟩
  rw [hlinks]
  exact (h.points_place hi').2

/-- Adding a node after another one. -/
theorem listAddNodeNext (h : Rep cmp s q c) (hi : q.list i = l₁ ++ e :: l₂) (val : α) :
    Achieves (listAddNodeNext i (some e.1) val)
      (Gets cmp q c i ((l₁ ++ [e]) ++ (q.fresh, val) :: l₂) (c i + 1)) s := by
  obtain ⟨hi', he, hnext, hlast, hhead⟩ := h.place_after hi
  rw [← h.count]
  exact h.gets_of_insert hi' hlast hhead (achieves_listAddNodeNext hnext he)

/-- Adding a node after another one, which is not counted. -/
theorem listnodeAddAfter (h : Rep cmp s q c) (hi : q.list i = l₁ ++ e :: l₂) (val : α) :
    Achieves (listnodeAddAfter i (some e.1) val)
      (Gets cmp q c i ((l₁ ++ [e]) ++ (q.fresh, val) :: l₂) (c i)) s := by
  obtain ⟨hi', he, hnext, hlast, hhead⟩ := h.place_after hi
  rw [← h.count]
  exact h.gets_of_insert hi' hlast hhead (achieves_listnodeAddAfter hnext he)

/-- `listnode_add_after` without a node prepends, and does not count. -/
theorem listnodeAddAfter_none (h : Rep cmp s q c) (i : ι) (val : α) :
    Achieves (Lists.listnodeAddAfter i none val)
      (Gets cmp q c i ((q.fresh, val) :: q.list i) (c i)) s := by
  have hi := (List.nil_append (q.list i)).symm
  rw [← h.count]
  refine h.gets_of_insert hi rfl (h.head i) (achieves_listnodeAddAfter_none ?_)
  rw [h.head]
  exact (h.points_place hi).2

omit [DecidableEq ι] in
/-- The search for the place of a new node. -/
theorem findGreater (h : Rep cmp s q c) (i : ι) (val : α) :
    Achieves (findGreater (s.list i) val) (fun r s' => s' = s.alloc val ∧
      r = (cmp i).bind fun cmp => ((q.list i).find? fun e => decide (cmp val e.2 < 0)).map Prod.fst)
      (s.alloc val) := by
  rw [Lists.findGreater, h.cmp]
  rcases cmp i with _ | cmp
  · exact achieves_pure.2 ⟨rfl, rfl⟩
  have hfresh {e : ℕ × α} (he : e ∈ q.list i) : e.1 ≠ s.fresh := (h.fresh ▸ h.lt_fresh he).ne
  rw [achieves_bind, achieves_get, h.head]
  refine achieves_findNode _ ((h.isList i).chain.congr fun a ha => ?_) (fun e he => ?_) ?_
  · obtain ⟨e, he, rfl⟩ := List.mem_map.1 ha
    exact Function.update_of_ne (hfresh he) _ _
  · exact (Function.update_of_ne (hfresh he) _ _).trans (h.data he)
  · exact (h.length_le i).trans (Nat.le_succ s.fresh)

/-- `listnode_add_sort` inserts in the order of the comparison. -/
theorem listnodeAddSort (h : Rep cmp s q c) (i : ι) (val : α) :
    Achieves (listnodeAddSort i val)
      (Gets cmp q c i (Mksh.listnodeAddSort (nodeCmp (cmp i)) (q.fresh, val) (q.list i))
        (c i + 1)) s := by
  have hfind := h.findGreater i val
  have happend (hnone : Achieves (Lists.findGreater (s.list i) val)
      (fun r s' => s' = s.alloc val ∧ r = none) (s.alloc val)) :
      Achieves (Lists.listnodeAddSort i val)
        (Gets cmp q c i (q.list i ++ [(q.fresh, val)]) (c i + 1)) s := by
    have hi := (List.append_nil (q.list i)).symm
    have hprev := (h.points_place hi).1
    rw [← h.count]
    refine h.gets_of_insert hi (h.tail i) rfl (achieves_listnodeAddSort_append hnone ?_)
    rwa [h.tail]
  -- Without a comparison nothing is found, and the node is appended.
  rcases hcmp : cmp i with _ | cmp'
  · rw [hcmp] at hfind
    exact happend hfind
  rw [hcmp, Option.bind_some] at hfind
  rw [nodeCmp, Option.map_some, Mksh.listnodeAddSort]
  rcases he : (q.list i).find? fun e => decide (cmp' val e.2 < 0) with _ | e
  · rw [he] at hfind
    rw [addSortLoop_eq_concat fun e' he' => by simpa using List.find?_eq_none.1 he e' he']
    exact happend hfind
  · obtain ⟨hlt, l₁, l₂, hi, hl₁⟩ := List.find?_eq_some_iff_append.1 he
    rw [he] at hfind
    obtain ⟨hprev, hpoint⟩ := h.points_place hi
    have hlinks := congrArg Links.prev (h.links hi)
    rw [hi, addSortLoop_append (fun e' he' => by simpa using hl₁ e' he') (by simpa using hlt),
      ← h.count]
    refine h.gets_of_insert hi hlinks rfl (achieves_listnodeAddSort_before hfind ?_ hpoint)
    rwa [hlinks]

/-- Adding the data of nodes of another list. -/
theorem listAddListLoop (h : Rep cmp s q c) {fuel : ℕ} (hij : j ≠ i) (hj : q.list j = l₁ ++ l)
    (hfuel : l.length ≤ fuel) :
    Achieves (listAddListLoop i fuel (l.map Prod.fst).head?) (fun _ s' =>
      Rep cmp s'
        (q.setList i (addSortAll (cmp i) q.fresh (l.map Prod.snd) (q.list i)) l.length)
        (Function.update c i (c i + UInt32.ofNat l.length))) s := by
  induction l generalizing s q c l₁ fuel with
  | nil =>
    have hrep : Rep cmp s (q.setList i (q.list i) 0) (Function.update c i (c i + 0)) := by
      rwa [Sequences.setList_self, UInt32.add_zero, Function.update_eq_self]
    cases fuel
    · exact achieves_pure.2 hrep
    · exact achieves_pure.2 hrep
  | cons e l ih =>
    rcases fuel with _ | fuel
    · exact absurd hfuel (Nat.not_succ_le_zero _)
    have hmem : e ∈ q.list j := hj ▸ List.mem_append_right _ List.mem_cons_self
    rw [List.map_cons, List.head?_cons, Lists.listAddListLoop, achieves_bind,
      achieves_getData (h.data hmem), achieves_bind]
    refine (h.listnodeAddSort i e.2).mono fun _ s' h' => ?_
    -- The other list is as it was.
    have hj' : (q.setList i (Mksh.listnodeAddSort (nodeCmp (cmp i)) (q.fresh, e.2) (q.list i))
        1).list j = l₁ ++ e :: l := by
      rw [Sequences.list_setList, Function.update_of_ne hij, hj]
    obtain ⟨hj'', he, -, -, hnext⟩ := h'.place_after hj'
    rw [achieves_bind, achieves_getNext, hnext]
    refine ⟨(he e.1 rfl).1, ?_⟩
    refine (ih h' hj'' (Nat.le_of_succ_le_succ hfuel)).mono fun _ s'' h'' => ?_
    have hcount : c i + 1 + UInt32.ofNat l.length = c i + UInt32.ofNat (l.length + 1) := by
      rw [UInt32.ofNat_add, UInt32.add_assoc, UInt32.add_comm 1]
      rfl
    rw [Sequences.setList_setList, Function.update_idem, Sequences.list_setList,
      Function.update_self, Function.update_self, hcount, Nat.add_comm] at h''
    exact h''

/-- Adding the data of another list. -/
theorem listAddList (h : Rep cmp s q c) (hij : j ≠ i) :
    Achieves (listAddList i j) (fun _ s' =>
      Rep cmp s' (q.setList i (addSortAll (cmp i) q.fresh ((q.list j).map Prod.snd) (q.list i))
        (q.list j).length)
        (Function.update c i (c i + UInt32.ofNat (q.list j).length))) s := by
  rw [Lists.listAddList, achieves_bind, achieves_get, achieves_bind, getList, achieves_bind,
    achieves_get, achieves_pure, h.head]
  exact h.listAddListLoop hij (List.nil_append (q.list j)).symm (h.length_le j)

/-! ### Deleting -/

/-- Deleting a node takes its entry out of the list. -/
theorem listDeleteNode (h : Rep cmp s q c) (hi : q.list i = l₁ ++ e :: l₂) :
    Achieves (listDeleteNode i (some e.1)) (fun _ s' =>
      Rep cmp s' (q.setList i (l₁ ++ l₂) 0) (Function.update c i (c i - 1))) s := by
  have hplace := h.points_place hi
  have hafter := h.place_after hi
  have hprev : s.Points (s.links e.1).prev := by
    rw [h.links hi]
    exact hplace.1
  refine (achieves_listDeleteNode hplace.2 hprev hafter.2.2.1).mono ?_
  rintro _ _ rfl
  have haddr : q.addresses i = l₁.map Prod.fst ++ e.1 :: l₂.map Prod.fst := by
    rw [Sequences.addresses, hi, List.map_append, List.map_cons]
  -- The deleted address is in no other list, and once in its own.
  have hne {j : ι} {x : ℕ × α} (hx : x ∈ q.list j) (hj : j ≠ i ∨ x ∈ l₁ ++ l₂) : x.1 ≠ e.1 := by
    have he : e.1 ∈ q.addresses i := haddr ▸ List.mem_append_right _ List.mem_cons_self
    rcases hj with hj | hx
    · exact ne_of_mem_of_not_mem (List.mem_map_of_mem hx) fun hmem =>
        h.areLists.disjoint hj e.1 hmem he
    · have hnodup := (h.isList i).nodup
      rw [haddr] at hnodup
      have hnot := (List.nodup_cons.1 (List.nodup_middle.1 hnodup)).1
      rw [← List.map_append] at hnot
      exact ne_of_mem_of_not_mem (List.mem_map_of_mem hx) hnot
  have hlist : (s.remove i e.1 ((s.list i).count - 1)).list = Function.update s.list i _ := rfl
  rw [← h.count]
  refine h.update hlist rfl ?_ (fun x hx => ?_) (fun j hj x hx => ?_) rfl
  · have hunlink := h.areLists.unlink haddr
    convert hunlink using 2
    · rfl
    · simp [unlink, LinkList.header, hi]
      omega
    · rw [List.map_append]
  · have hmem : x ∈ q.list i := by
      rw [hi]
      simp only [List.mem_append, List.mem_cons] at hx ⊢
      tauto
    exact ⟨(Function.update_of_ne (hne hmem (.inr hx)) _ _).trans (h.data hmem), h.lt_fresh hmem⟩
  · exact Function.update_of_ne (hne hx (.inl hj)) _ _

/-- The first node with the given data is deleted, if there is one. -/
theorem listnodeDelete [DecidableEq α] (h : Rep cmp s q c) (i : ι) (val : α) :
    Achieves (listnodeDelete i val) (fun _ s' =>
      Rep cmp s' (q.setList i ((q.list i).eraseP fun e => decide (e.2 = val)) 0)
        (Function.update c i (if ∃ e ∈ q.list i, e.2 = val then c i - 1 else c i))) s := by
  have hfind := achieves_findNode (fun data => decide (data = val)) (h.isList i).chain
    (fun e he => h.data he) (h.length_le i)
  rw [Lists.listnodeDelete, achieves_bind, getList, achieves_bind, achieves_get, achieves_pure,
    achieves_bind, achieves_get, achieves_bind, h.head]
  refine hfind.mono ?_
  rintro _ _ ⟨rfl, rfl⟩
  -- Only the first node with the value is deleted.
  rcases he : (q.list i).find? fun e => decide (e.2 = val) with _ | e
  · have hnone : ∀ e ∈ q.list i, e.2 ≠ val := fun e he' => by
      simpa using List.find?_eq_none.1 he e he'
    have hsame : (q.list i).eraseP (fun e => decide (e.2 = val)) = q.list i :=
      List.eraseP_of_forall_not fun e he' => by simpa using hnone e he'
    have hnot : ¬∃ e ∈ q.list i, e.2 = val := by
      rintro ⟨e, he', heq⟩
      exact hnone e he' heq
    rw [hsame, if_neg hnot, Function.update_eq_self, Sequences.setList_self, he,
      Option.map_none, Option.isSome_none, if_neg Bool.false_ne_true]
    exact achieves_pure.2 h
  · obtain ⟨hval, l₁, l₂, hi, hl₁⟩ := List.find?_eq_some_iff_append.1 he
    have herase : (q.list i).eraseP (fun e => decide (e.2 = val)) = l₁ ++ l₂ := by
      rw [hi, List.eraseP_append_right _ fun e he' => by simpa using hl₁ e he',
        List.eraseP_cons_of_pos (by exact hval)]
    have hmem : e ∈ q.list i := hi ▸ List.mem_append_right _ List.mem_cons_self
    have hex : ∃ e ∈ q.list i, e.2 = val := ⟨e, hmem, of_decide_eq_true hval⟩
    rw [herase, if_pos hex, he, Option.map_some, Option.isSome_some, if_pos rfl]
    exact h.listDeleteNode hi

/-- All nodes are deleted. -/
theorem listDeleteAllNode (h : Rep cmp s q c) (i : ι) :
    Achieves (listDeleteAllNode i) (fun _ s' =>
      Rep cmp s' (q.setList i [] 0) (Function.update c i 0)) s := by
  have hdata : ∀ a ∈ q.addresses i, (s.data a).isSome := by
    intro a ha
    obtain ⟨e, he, rfl⟩ := List.mem_map.1 ha
    rw [h.data he, Option.isSome_some]
  have hlength : (q.addresses i).length ≤ s.fresh := by
    rw [Sequences.addresses, List.length_map]
    exact h.length_le i
  refine (achieves_listDeleteAllNode (h.head i) (h.isList i).chain (h.isList i).nodup hdata
    hlength).mono ?_
  rintro _ s' ⟨hlist, hlinks, hfresh, hframe⟩
  refine h.update hlist rfl ?_ (List.forall_mem_nil _) (fun j hj e he => ?_)
    (hfresh.trans (Nat.add_zero _).symm)
  · rw [hlinks]
    exact h.areLists.update (isList_empty s.links) (List.forall_mem_nil _) fun _ _ _ _ => rfl
  · exact hframe e.1 fun hmem => h.areLists.disjoint hj e.1 (List.mem_map_of_mem he) hmem

end Rep

end Lists

end Mksh
