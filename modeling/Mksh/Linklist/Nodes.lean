import Mksh.Lib.Ensures
import Mksh.Lib.Intrusive
import Mksh.Linklist

/-!
# Linked lists

The generic lists in memory: the nodes of several lists, in one heap. A node is given
by its address, under which it has its links and its data. The functions are
processes on the memory, in which the calls of `del` are logged. Reading or writing
through a `NULL` pointer, or to a node that has been freed, ends the process.

The count of a list is an `unsigned int`. A loop that goes through more nodes than
have been allocated never ends, which ends the process as well.

The lists are indexed by `ι`, their data are in `α`, and `D` is the type of the
functions `del`.
-/

namespace Mksh

open Process Intrusive

/-- `struct list`. The data are deleted with `del`, if there is one. -/
structure LinkList (α D : Type) where
  head : Option ℕ
  tail : Option ℕ
  count : UInt32
  cmp : Option (α → α → ℤ)
  del : Option D

/-- The lists, the links of the nodes and their data, which are `none` where no node is,
    and the address that the next node will get. -/
structure Lists (ι α D : Type) where
  list : ι → LinkList α D
  links : Heap ℕ
  data : ℕ → Option α
  fresh : ℕ

/-- The functions on lists, which log the data that they delete, with the function. -/
abbrev ListProcess (ι α D β : Type) := Process (Lists ι α D) (D × α) β

variable {ι α D : Type} [DecidableEq ι]

/-- Allocate new list, all of which is cleared. -/
def listNew : LinkList α D := ⟨none, none, 0, none, none⟩

/-! ## Memory -/

namespace Lists

variable (s : Lists ι α D)

/-- Another header for a list. -/
def setList (i : ι) (list : LinkList α D) : Lists ι α D :=
  { s with list := Function.update s.list i list }

/-- Other links for the nodes. -/
def setLinks (links : Heap ℕ) : Lists ι α D := { s with links }

/-- A new node for `val`, which is linked to no other. -/
def alloc (val : α) : Lists ι α D :=
  { s with links := Function.update s.links s.fresh ⟨none, none⟩,
           data := Function.update s.data s.fresh (some val),
           fresh := s.fresh + 1 }

/-- A node that is freed has no data any more; its links stay as they are. -/
def free (node : ℕ) : Lists ι α D := { s with data := Function.update s.data node none }

/-- The nodes of a list, from its head on. -/
def nodes (i : ι) : List ℕ := Intrusive.nodes s.links s.fresh (s.list i).head

/-- The node at an address, which is there. -/
def nodeAt (node : Option ℕ) : ListProcess ι α D ℕ := do
  match node with
  | none => halt
  | some node =>
    if ((← get).data node).isSome then return node
    else halt

/-- `node->next`. -/
def getNext (node : Option ℕ) : ListProcess ι α D (Option ℕ) := do
  let node ← nodeAt node
  return ((← get).links node).next

/-- `node->prev`. -/
def getPrev (node : Option ℕ) : ListProcess ι α D (Option ℕ) := do
  let node ← nodeAt node
  return ((← get).links node).prev

/-- `node->data`. -/
def getData (node : Option ℕ) : ListProcess ι α D α := do
  let node ← nodeAt node
  match (← get).data node with
  | none => halt
  | some val => return val

/-- Assigning to `node->next`. -/
def putNext (node next : Option ℕ) : ListProcess ι α D Unit := do
  let node ← nodeAt node
  modify fun s => s.setLinks (setNext s.links (some node) next)

/-- Assigning to `node->prev`. -/
def putPrev (node prev : Option ℕ) : ListProcess ι α D Unit := do
  let node ← nodeAt node
  modify fun s => s.setLinks (setPrev s.links (some node) prev)

/-- Reading the header of a list. -/
def getList (i : ι) : ListProcess ι α D (LinkList α D) := do return (← get).list i

/-- Assigning to `list->head`. -/
def putHead (i : ι) (head : Option ℕ) : ListProcess ι α D Unit :=
  modify fun s => s.setList i { s.list i with head }

/-- Assigning to `list->tail`. -/
def putTail (i : ι) (tail : Option ℕ) : ListProcess ι α D Unit :=
  modify fun s => s.setList i { s.list i with tail }

/-- `list->count++`. -/
def incCount (i : ι) : ListProcess ι α D Unit :=
  modify fun s => s.setList i { s.list i with count := (s.list i).count + 1 }

/-- `list->count--`. -/
def decCount (i : ι) : ListProcess ι α D Unit :=
  modify fun s => s.setList i { s.list i with count := (s.list i).count - 1 }

/-- `list->count = 0`. -/
def clearCount (i : ι) : ListProcess ι α D Unit :=
  modify fun s => s.setList i { s.list i with count := 0 }

/-- Allocate new listnode, with its data. -/
def listnodeNew (val : α) : ListProcess ι α D (Option ℕ) := do
  let node := (← get).fresh
  modify fun s => s.alloc val
  return some node

/-- Free listnode. -/
def listnodeFree (node : Option ℕ) : ListProcess ι α D Unit := do
  let node ← nodeAt node
  modify fun s => s.free node

/-! ## Adding -/

/-- Add new data to the list. -/
def listnodeAddOld (i : ι) (val : α) : ListProcess ι α D Unit := do
  let node ← listnodeNew val
  let list ← getList i
  putPrev node list.tail
  if list.head = none then putHead i node
  else putNext list.tail node
  putTail i node
  incCount i

/-- The first node whose data satisfy `p`, from one on. -/
def findNode (p : α → Bool) : ℕ → Option ℕ → ListProcess ι α D (Option ℕ)
  | _, none => return none
  | 0, some _ => halt
  | fuel + 1, some n => do
    let data ← getData (some n)
    if p data then return some n
    else findNode p fuel (← getNext (some n))

/-- The first node whose data are greater than `val`, if there is a `cmp`. -/
def findGreater (list : LinkList α D) (val : α) : ListProcess ι α D (Option ℕ) := do
  match list.cmp with
  | none => return none
  | some cmp => findNode (fun data => decide (cmp val data < 0)) (← get).fresh list.head

/-- Add new node with sort function. -/
def listnodeAddSort (i : ι) (val : α) : ListProcess ι α D Unit := do
  let new ← listnodeNew val
  let list ← getList i
  match ← findGreater list val with
  -- The first node with greater data: the new one is put before it.
  | some n =>
    putNext new (some n)
    let prev ← getPrev (some n)
    putPrev new prev
    if prev.isSome then putNext prev new
    else putHead i new
    putPrev (some n) new
    incCount i
  -- No data are greater, or there is no `cmp`: it is put at the end.
  | none =>
    putPrev new list.tail
    if list.tail.isSome then putNext list.tail new
    else putHead i new
    putTail i new
    incCount i

/-- The count is left as it is. -/
def listnodeAddAfter (i : ι) (pp : Option ℕ) (val : α) : ListProcess ι α D Unit := do
  let nn ← listnodeNew val
  let list ← getList i
  if pp = none then
    -- Without a node to add it after, it becomes the head.
    if list.head.isSome then putPrev list.head nn
    else putTail i nn
    putNext nn list.head
    putPrev nn pp
    putHead i nn
  else
    let next ← getNext pp
    if next.isSome then putPrev next nn
    else putTail i nn
    putNext nn next
    putPrev nn pp
    putNext pp nn

/-- Adding `val` before the node `current`. -/
def listAddNodePrev (i : ι) (current : Option ℕ) (val : α) : ListProcess ι α D Unit := do
  let node ← listnodeNew val
  putNext node current
  let prev ← getPrev current
  if prev = none then putHead i node
  else putNext prev node
  putPrev node prev
  putPrev current node
  incCount i

/-- Adding `val` after the node `current`. -/
def listAddNodeNext (i : ι) (current : Option ℕ) (val : α) : ListProcess ι α D Unit := do
  let node ← listnodeNew val
  putPrev node current
  let next ← getNext current
  if next = none then putTail i node
  else putPrev next node
  putNext node next
  putNext current node
  incCount i

/-- Adding the data of the nodes from one on, with `listnode_add`, which is
    `listnode_add_sort`. -/
def listAddListLoop (l : ι) : ℕ → Option ℕ → ListProcess ι α D Unit
  | _, none => return ()
  | 0, some _ => halt
  | fuel + 1, some n => do
    -- The next node of `m` is read after the data are added, which `l` may change if it is `m`.
    listnodeAddSort l (← getData (some n))
    listAddListLoop l fuel (← getNext (some n))

/-- Adding the data of the list `m` to the list `l`. -/
def listAddList (l m : ι) : ListProcess ι α D Unit := do
  listAddListLoop l (← get).fresh (← getList m).head

/-! ## Deleting -/

/-- Delete the node from list. -/
def listDeleteNode (i : ι) (node : Option ℕ) : ListProcess ι α D Unit := do
  let prev ← getPrev node
  let next ← getNext node
  if prev.isSome then putNext prev next
  else putHead i next
  if next.isSome then putPrev next prev
  else putTail i prev
  decCount i
  -- The data are not deleted.
  listnodeFree node

/-- Delete specific date pointer from the list. -/
def listnodeDelete [DecidableEq α] (i : ι) (val : α) : ListProcess ι α D Unit := do
  let list ← getList i
  let node ← findNode (fun data => decide (data = val)) (← get).fresh list.head
  if node.isSome then listDeleteNode i node

/-- The loop over the nodes, from one on: the data are deleted, and the node is freed. -/
def listDeleteAllNodeLoop (del : Option D) : ℕ → Option ℕ → ListProcess ι α D Unit
  | _, none => return ()
  | 0, some _ => halt
  | fuel + 1, some node => do
    -- The next one is read before the node is freed.
    let next ← getNext (some node)
    let data ← getData (some node)
    if let some del := del then emit (del, data)
    listnodeFree (some node)
    listDeleteAllNodeLoop del fuel next

/-- Delete all listnode from the list. -/
def listDeleteAllNode (i : ι) : ListProcess ι α D Unit := do
  let list ← getList i
  listDeleteAllNodeLoop list.del (← get).fresh list.head
  -- The nodes are not unlinked one by one.
  putHead i none
  putTail i none
  clearCount i

end Lists

end Mksh
