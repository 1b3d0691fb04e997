import Mathlib.Data.List.Sort
import Mksh.Linklist.Refine

/-!
# Runs of list operations

A run starts with lists from `list_new`, and calls the functions on them in any order,
on nodes of the lists (`Lists.Run`). The lists are then the sequences that the
specifications of the calls give (`isSequence_run`), and one that has only been added to
in order is sorted, its equal data in the order in which they have been added.

The counts are kept by hand: they are the numbers of nodes as long as none has been
added by `listnode_add_after`, which does not count it, and no list has gone through
all numbers (`counted_run_iff`).
-/

namespace Mksh

open Process Intrusive

variable {ι α D : Type} [DecidableEq ι]

namespace Lists

/-! ## Calls -/

/-- A call of one of the functions on lists. -/
inductive Op (ι α : Type)
  | listnodeAddOld (i : ι) (val : α)
  | listnodeAddSort (i : ι) (val : α)
  | listnodeAddAfter (i : ι) (pp : Option ℕ) (val : α)
  | listnodeDelete (i : ι) (val : α)
  | listDeleteNode (i : ι) (node : ℕ)
  | listAddNodePrev (i : ι) (current : ℕ) (val : α)
  | listAddNodeNext (i : ι) (current : ℕ) (val : α)
  | listAddList (l m : ι)
  | listDeleteAllNode (i : ι)

namespace Op

/-- What the call does. -/
def perform [DecidableEq α] : Op ι α → ListProcess ι α D Unit
  | .listnodeAddOld i val => Lists.listnodeAddOld i val
  | .listnodeAddSort i val => Lists.listnodeAddSort i val
  | .listnodeAddAfter i pp val => Lists.listnodeAddAfter i pp val
  | .listnodeDelete i val => Lists.listnodeDelete i val
  | .listDeleteNode i node => Lists.listDeleteNode i (some node)
  | .listAddNodePrev i current val => Lists.listAddNodePrev i (some current) val
  | .listAddNodeNext i current val => Lists.listAddNodeNext i (some current) val
  | .listAddList l m => Lists.listAddList l m
  | .listDeleteAllNode i => Lists.listDeleteAllNode i

/-- The node is one of the list, and a list is not added to itself. -/
def Valid (s : Lists ι α D) : Op ι α → Prop
  | .listnodeAddAfter i pp _ => ∀ node ∈ pp, node ∈ s.nodes i
  | .listDeleteNode i node => node ∈ s.nodes i
  | .listAddNodePrev i current _ => current ∈ s.nodes i
  | .listAddNodeNext i current _ => current ∈ s.nodes i
  | .listAddList l m => m ≠ l
  | _ => True

/-- What a call does to the sequences. -/
def spec [DecidableEq α] (cmp : ι → Option (α → α → ℤ)) (q : Sequences ι α) :
    Op ι α → Sequences ι α
  | .listnodeAddOld i val => q.setList i (q.list i ++ [(q.fresh, val)]) 1
  | .listnodeAddSort i val =>
    q.setList i (Mksh.listnodeAddSort (nodeCmp (cmp i)) (q.fresh, val) (q.list i)) 1
  | .listnodeAddAfter i none val => q.setList i ((q.fresh, val) :: q.list i) 1
  | .listnodeAddAfter i (some pp) val =>
    q.setList i (insertAfter pp (q.fresh, val) (q.list i)) 1
  | .listnodeDelete i val => q.setList i ((q.list i).eraseP fun e => decide (e.2 = val)) 0
  | .listDeleteNode i node => q.setList i ((q.list i).eraseP fun e => decide (e.1 = node)) 0
  | .listAddNodePrev i current val =>
    q.setList i (insertBefore current (q.fresh, val) (q.list i)) 1
  | .listAddNodeNext i current val =>
    q.setList i (insertAfter current (q.fresh, val) (q.list i)) 1
  | .listAddList l m => q.setList l
    (addSortAll (cmp l) q.fresh ((q.list m).map Prod.snd) (q.list l)) (q.list m).length
  | .listDeleteAllNode i => q.setList i [] 0

/-- What a call does to the counts. -/
def counts [DecidableEq α] (q : Sequences ι α) (c : ι → UInt32) : Op ι α → ι → UInt32
  | .listnodeAddOld i _ => Function.update c i (c i + 1)
  | .listnodeAddSort i _ => Function.update c i (c i + 1)
  | .listnodeAddAfter i _ _ => Function.update c i (c i)
  | .listnodeDelete i val =>
    Function.update c i (if ∃ e ∈ q.list i, e.2 = val then c i - 1 else c i)
  | .listDeleteNode i _ => Function.update c i (c i - 1)
  | .listAddNodePrev i _ _ => Function.update c i (c i + 1)
  | .listAddNodeNext i _ _ => Function.update c i (c i + 1)
  | .listAddList l m => Function.update c l (c l + UInt32.ofNat (q.list m).length)
  | .listDeleteAllNode i => Function.update c i 0

end Op

variable {cmp : ι → Option (α → α → ℤ)} {del : ι → Option D} {s s' : Lists ι α D}
  {q : Sequences ι α} {c : ι → UInt32} {i : ι} {op : Op ι α}

omit [DecidableEq ι] in

/-- Walking along the links visits the addresses of the list. -/
theorem Rep.nodes_eq (h : Rep cmp s q c) (i : ι) : s.nodes i = q.addresses i := by
  refine (h.isList i).nodes ?_
  rw [Sequences.addresses, List.length_map]
  exact h.length_le i

omit [DecidableEq ι] in
/-- The place of a node. -/
theorem Rep.exists_place (h : Rep cmp s q c) {node : ℕ} (hnode : node ∈ s.nodes i) :
    ∃ l₁ e l₂, q.list i = l₁ ++ e :: l₂ ∧ e.1 = node ∧ node ∉ l₁.map Prod.fst := by
  rw [h.nodes_eq] at hnode
  obtain ⟨e, he, rfl⟩ := List.mem_map.1 hnode
  obtain ⟨l₁, l₂, hi⟩ := List.append_of_mem he
  refine ⟨l₁, e, l₂, hi, rfl, fun hmem => ?_⟩
  have hnodup := (h.isList i).nodup
  rw [Sequences.addresses, hi, List.map_append, List.map_cons] at hnodup
  exact (List.nodup_append.1 hnodup).2.2 e.1 hmem e.1 List.mem_cons_self rfl

variable [DecidableEq α]

/-- A call returns, and does to the sequences what its specification does. -/
theorem Rep.perform (h : Rep cmp s q c) (hop : op.Valid s) :
    Achieves op.perform (fun _ s' => Rep cmp s' (op.spec cmp q) (op.counts q c)) s := by
  -- One lemma for each operation. The place of a node splits its list.
  cases op with
  | listnodeAddOld i val => exact h.listnodeAddOld i val
  | listnodeAddSort i val => exact h.listnodeAddSort i val
  | listnodeAddAfter i pp val =>
    rcases pp with _ | pp
    · exact h.listnodeAddAfter_none i val
    · obtain ⟨l₁, e, l₂, hi, rfl, hnot⟩ := h.exists_place (hop pp rfl)
      rw [Op.spec, Op.counts, hi, insertAfter_append hnot, ← List.singleton_append,
        ← List.append_assoc]
      exact h.listnodeAddAfter hi val
  | listnodeDelete i val => exact h.listnodeDelete i val
  | listDeleteNode i node =>
    obtain ⟨l₁, e, l₂, hi, rfl, hnot⟩ := h.exists_place hop
    have herase : (l₁ ++ e :: l₂).eraseP (fun x => decide (x.1 = e.1)) = l₁ ++ l₂ := by
      have hcons : (e :: l₂).eraseP (fun x => decide (x.1 = e.1)) = l₂ :=
        List.eraseP_cons_of_pos (decide_eq_true rfl)
      rw [List.eraseP_append_right, hcons]
      intro x hx
      rw [decide_eq_true_eq]
      exact ne_of_mem_of_not_mem (List.mem_map_of_mem hx) hnot
    rw [Op.spec, Op.counts, hi, herase]
    exact h.listDeleteNode hi
  | listAddNodePrev i current val =>
    obtain ⟨l₁, e, l₂, hi, rfl, hnot⟩ := h.exists_place hop
    rw [Op.spec, Op.counts, hi, insertBefore_append hnot]
    exact h.listAddNodePrev hi val
  | listAddNodeNext i current val =>
    obtain ⟨l₁, e, l₂, hi, rfl, hnot⟩ := h.exists_place hop
    rw [Op.spec, Op.counts, hi, insertAfter_append hnot, ← List.singleton_append,
      ← List.append_assoc]
    exact h.listAddNodeNext hi val
  | listAddList l m => exact h.listAddList hop
  | listDeleteAllNode i => exact h.listDeleteAllNode i

/-! ## Runs -/

/-- Lists from `list_new`, which have been given functions `cmp` and `del`. -/
def new (cmp : ι → Option (α → α → ℤ)) (del : ι → Option D) : Lists ι α D where
  list i := { (listNew : LinkList α D) with cmp := cmp i, del := del i }
  links _ := ⟨none, none⟩
  data _ := none
  fresh := 0

/-- A call that has returned. -/
structure Step (ι α D : Type) where
  before : Lists ι α D
  op : Op ι α
  after : Lists ι α D

/-- The calls made on new lists, and the memory after them. -/
inductive Run (cmp : ι → Option (α → α → ℤ)) (del : ι → Option D) :
    List (Step ι α D) → Lists ι α D → Prop
  | new : Run cmp del [] (new cmp del)
  | step {steps s s'} (op) : Run cmp del steps s → op.Valid s →
      op.perform.result s = some ((), s') → Run cmp del (steps ++ [⟨s, op, s'⟩]) s'

/-- The sequences that the specifications of calls give. -/
def specs (cmp : ι → Option (α → α → ℤ)) (ops : List (Op ι α)) : Sequences ι α :=
  ops.foldl (fun q op => op.spec cmp q) ⟨fun _ => [], 0⟩

variable {steps : List (Step ι α D)}

omit [DecidableEq ι] [DecidableEq α] in

/-- The empty memory represents empty lists. -/
theorem rep_new : Rep cmp (new cmp del) ⟨fun _ => [], 0⟩ fun _ => 0 where
  areLists := ⟨fun _ => isList_empty _, fun _ _ ha => absurd ha List.not_mem_nil⟩
  data he := absurd he List.not_mem_nil
  lt_fresh he := absurd he List.not_mem_nil
  fresh := rfl
  count _ := rfl
  cmp _ := rfl

theorem specs_concat (cmp : ι → Option (α → α → ℤ)) (steps : List (Step ι α D))
    (step : Step ι α D) : specs cmp ((steps ++ [step]).map Step.op) =
      step.op.spec cmp (specs cmp (steps.map Step.op)) := by
  rw [specs, List.map_append, List.foldl_append]
  rfl

/-- Every state that is reached represents the sequences of the specification, by induction on
    the run. -/
theorem Run.rep (h : Run cmp del steps s) : ∃ c, Rep cmp s (specs cmp (steps.map Step.op)) c := by
  induction h with
  | new => exact ⟨_, rep_new⟩
  | step op _ hop hr ih =>
    obtain ⟨c, hc⟩ := ih
    rw [specs_concat]
    exact ⟨_, (hc.perform hop).ensures () _ hr⟩

/-! ## Order -/

/-- The call leaves a list alone, but for adding to it in order and for deleting. -/
def Op.Sorts (i : ι) : Op ι α → Prop
  | .listnodeAddOld j _ => j ≠ i
  | .listnodeAddAfter j _ _ => j ≠ i
  | .listAddNodePrev j _ _ => j ≠ i
  | .listAddNodeNext j _ _ => j ≠ i
  | _ => True

/-- The data of the first node are smaller, or equal and added earlier. -/
def InOrder (cmp : α → α → ℤ) (e e' : ℕ × α) : Prop :=
  cmp e.2 e'.2 < 0 ∨ cmp e.2 e'.2 = 0 ∧ e.1 < e'.1

section Order

variable {f : α → α → ℤ} {l : List (ℕ × α)} {fresh : ℕ}

omit [DecidableEq α] in

/-- Sorted insertion keeps a list in order, and equal values in the order of their arrival. -/
theorem pairwise_addSort (hf : TotalPreorder f) (hl : l.Pairwise (InOrder f))
    (hfresh : ∀ e ∈ l, e.1 < fresh) (val : α) :
    (Mksh.listnodeAddSort (nodeCmp (some f)) (fresh, val) l).Pairwise (InOrder f) := by
  rw [nodeCmp, Option.map_some, Mksh.listnodeAddSort]
  induction l with
  | nil => exact List.pairwise_singleton ..
  | cons n l ih =>
    obtain ⟨hn, hl'⟩ := List.pairwise_cons.1 hl
    obtain ⟨hnf, hfresh⟩ := List.forall_mem_cons.1 hfresh
    rw [addSortLoop]
    split_ifs with hlt
    · refine List.pairwise_cons.2 ⟨List.forall_mem_cons.2 ⟨.inl hlt, fun e he => .inl ?_⟩, hl⟩
      refine hf.trans_lt hlt ?_
      rcases hn e he with hne | hne
      · exact hne.le
      · exact hne.1.le
    · refine List.pairwise_cons.2 ⟨fun e he => ?_, ih hl' hfresh⟩
      rcases List.mem_cons.1 ((addSortLoop_perm _ _ l).mem_iff.1 he) with rfl | he
      · rcases (hf.flip (not_lt.1 hlt)).lt_or_eq with hne | hne
        · exact .inl hne
        · exact .inr ⟨hne, hnf⟩
      · exact hn e he

omit [DecidableEq α] in

/-- The addresses of a list stay below the next one. -/
theorem forall_lt_addSort (h : ∀ e ∈ l, e.1 < fresh) (g : Option (α → α → ℤ)) (val : α) :
    ∀ e ∈ Mksh.listnodeAddSort (nodeCmp g) (fresh, val) l, e.1 < fresh + 1 := by
  have hcons : ∀ e ∈ (fresh, val) :: l, e.1 < fresh + 1 :=
    List.forall_mem_cons.2 ⟨fresh.lt_succ_self, fun e he => Nat.lt_succ_of_lt (h e he)⟩
  intro e he
  exact hcons e ((listnodeAddSort_perm _ _ l).mem_iff.1 he)

omit [DecidableEq α] in

/-- Adding all values of another list keeps the order. -/
theorem pairwise_addSortAll (hf : TotalPreorder f) (hl : l.Pairwise (InOrder f))
    (hfresh : ∀ e ∈ l, e.1 < fresh) (vals : List α) :
    (addSortAll (some f) fresh vals l).Pairwise (InOrder f) := by
  induction vals generalizing fresh l with
  | nil => exact hl
  | cons val vals ih =>
    exact ih (pairwise_addSort hf hl hfresh val) (forall_lt_addSort hfresh (some f) val)

/-- A call that adds in order keeps the order. -/
theorem pairwise_spec (hf : TotalPreorder f) (hcmp : cmp i = some f)
    (hl : (q.list i).Pairwise (InOrder f)) (hfresh : ∀ e ∈ q.list i, e.1 < q.fresh)
    (hop : op.Sorts i) : ((op.spec cmp q).list i).Pairwise (InOrder f) := by
  -- Only what a call does to the list itself matters.
  have hset (j : ι) {l : List (ℕ × α)} {new : ℕ} (h : j = i → l.Pairwise (InOrder f)) :
      ((q.setList j l new).list i).Pairwise (InOrder f) := by
    rcases eq_or_ne i j with rfl | hij
    · rw [Sequences.list_setList, Function.update_self]
      exact h rfl
    · rwa [Sequences.list_setList, Function.update_of_ne hij]
  cases op with
  | listnodeAddOld j val => exact hset j fun hj => absurd hj hop
  | listnodeAddSort j val =>
    refine hset j ?_
    rintro rfl
    rw [hcmp]
    exact pairwise_addSort hf hl hfresh val
  | listnodeAddAfter j pp val =>
    cases pp with
    | none => exact hset j fun hj => absurd hj hop
    | some pp => exact hset j fun hj => absurd hj hop
  | listnodeDelete j val =>
    refine hset j ?_
    rintro rfl
    exact hl.sublist List.eraseP_sublist
  | listDeleteNode j node =>
    refine hset j ?_
    rintro rfl
    exact hl.sublist List.eraseP_sublist
  | listAddNodePrev j current val => exact hset j fun hj => absurd hj hop
  | listAddNodeNext j current val => exact hset j fun hj => absurd hj hop
  | listAddList j m =>
    refine hset j ?_
    rintro rfl
    rw [hcmp]
    exact pairwise_addSortAll hf hl hfresh _
  | listDeleteAllNode j => exact hset j fun _ => .nil

end Order

/-- In a run that only sorts into a list, that list is in order. -/
theorem Run.pairwise (h : Run cmp del steps s) {f : α → α → ℤ} (hf : TotalPreorder f)
    (hcmp : cmp i = some f) (hsteps : ∀ step ∈ steps, step.op.Sorts i) :
    ((specs cmp (steps.map Step.op)).list i).Pairwise (InOrder f) := by
  induction h with
  | new => exact .nil
  | step op hrun _ _ ih =>
    obtain ⟨hsteps, hop⟩ := List.forall_mem_append.1 hsteps
    obtain ⟨c, hc⟩ := hrun.rep
    rw [specs_concat]
    exact pairwise_spec hf hcmp (ih hsteps) (fun e he => hc.lt_fresh he)
      (hop _ List.mem_cons_self)

/-! ## Sequences -/

/-- A list is well-formed, with the nodes `l`, each with its data, in order. -/
structure IsSequence (s : Lists ι α D) (i : ι) (l : List (ℕ × α)) : Prop where
  nodup : (l.map Prod.fst).Nodup
  next {n : ℕ} : l.length ≤ n → Intrusive.nodes s.links n (s.list i).head = l.map Prod.fst
  prev {n : ℕ} : l.length ≤ n →
    Intrusive.nodes (fun node => (s.links node).swap) n (s.list i).tail = (l.map Prod.fst).reverse
  head_eq_none : (s.list i).head = none ↔ (s.list i).tail = none
  data : ∀ e ∈ l, s.data e.1 = some e.2

omit [DecidableEq ι] [DecidableEq α] in

/-- What represents a sequence can be walked along both ways. -/
theorem Rep.isSequence (h : Rep cmp s q c) (i : ι) : IsSequence s i (q.list i) where
  nodup := (h.isList i).nodup
  next hn := (h.isList i).nodes (by rwa [Sequences.addresses, List.length_map])
  prev hn := (h.isList i).nodes_swap (by rwa [Sequences.addresses, List.length_map])
  head_eq_none := by
    rw [h.head, h.tail, List.head?_eq_none_iff, List.getLast?_eq_none_iff]
  data e he := h.data he

/-- The lists are the sequences that the specifications of the calls give, every call
    returns, and a list only added to in order, with a `cmp`, is in order. -/
theorem isSequence_run (h : Run cmp del steps s) :
    (∀ i, IsSequence s i ((specs cmp (steps.map Step.op)).list i)) ∧
    (∀ op : Op ι α, op.Valid s → ∃ s', op.perform.result s = some ((), s')) ∧
    ∀ i f, cmp i = some f → TotalPreorder f → (∀ step ∈ steps, step.op.Sorts i) →
      ((specs cmp (steps.map Step.op)).list i).Pairwise (InOrder f) := by
  obtain ⟨c, hc⟩ := h.rep
  refine ⟨hc.isSequence, fun op hop => ?_, fun i f hcmp hf hsteps => h.pairwise hf hcmp hsteps⟩
  obtain ⟨_, s', hr, -⟩ := hc.perform hop
  exact ⟨s', hr⟩

/-- Of two data that are added in order, the smaller one comes first. -/
theorem isSequence_run_addSort : ∃ s : Lists Unit ℤ Unit,
    IsSequence s () [(1, 3), (0, 5)] ∧ [((1 : ℕ), (3 : ℤ)), (0, 5)].Pairwise (InOrder (· - ·)) := by
  have hcmp : TotalPreorder fun a b : ℤ => a - b := ⟨⟨by omega, by omega⟩, by omega⟩
  have hnew : Run (fun _ : Unit => some fun a b : ℤ => a - b) (fun _ => none) []
    (new _ _ : Lists Unit ℤ Unit) := .new
  have hrun := (hnew.step (.listnodeAddSort () 5) trivial rfl).step (.listnodeAddSort () 3)
    trivial rfl
  obtain ⟨hseq, -, horder⟩ := isSequence_run hrun
  refine ⟨_, hseq (), horder () _ rfl hcmp ?_⟩
  exact List.forall_mem_append.2 ⟨List.forall_mem_singleton.2 trivial,
    List.forall_mem_singleton.2 trivial⟩

/-! ## Counts -/

/-- The count of a list is the number of its nodes. -/
def Counted (s : Lists ι α D) (i : ι) : Prop := (s.list i).count.toNat = (s.nodes i).length

/-- The functions that count down. -/
def Op.Deletes (i : ι) : Op ι α → Prop
  | .listnodeDelete j _ => j = i
  | .listDeleteNode j _ => j = i
  | _ => False

/-- The count of a list has been decremented below zero, i.e., a deletion has made it
    greater. -/
def Step.Wraps (step : Step ι α D) (i : ι) : Prop :=
  step.op.Deletes i ∧ (step.before.list i).count < (step.after.list i).count

/-- The call counts what it adds, and the count has room for it. -/
def Op.Counts (s : Lists ι α D) : Op ι α → Prop
  | .listnodeAddOld i _ => (s.nodes i).length + 1 < 2 ^ 32
  | .listnodeAddSort i _ => (s.nodes i).length + 1 < 2 ^ 32
  | .listnodeAddAfter _ _ _ => False
  | .listAddNodePrev i _ _ => (s.nodes i).length + 1 < 2 ^ 32
  | .listAddNodeNext i _ _ => (s.nodes i).length + 1 < 2 ^ 32
  | .listAddList l m => (s.nodes l).length + (s.nodes m).length < 2 ^ 32
  | _ => True

section Counts

variable {e : ℕ × α} {l : List (ℕ × α)} {point new : ℕ}

omit [DecidableEq α] in
theorem length_insertBefore (h : point ∈ l.map Prod.fst) :
    (insertBefore point e l).length = l.length + 1 := by
  induction l with
  | nil => exact absurd h List.not_mem_nil
  | cons x l ih =>
    rw [insertBefore]
    split_ifs with hx
    · rfl
    · rcases List.mem_cons.1 h with h | h
      · exact absurd h.symm hx
      · rw [List.length_cons, ih h, List.length_cons]

omit [DecidableEq α] in
theorem length_insertAfter (h : point ∈ l.map Prod.fst) :
    (insertAfter point e l).length = l.length + 1 := by
  induction l with
  | nil => exact absurd h List.not_mem_nil
  | cons x l ih =>
    rw [insertAfter]
    split_ifs with hx
    · rfl
    · rcases List.mem_cons.1 h with h | h
      · exact absurd h.symm hx
      · rw [List.length_cons, ih h, List.length_cons]

omit [DecidableEq α] in

/-- Each value of the other list is added. -/
theorem length_addSortAll (f : Option (α → α → ℤ)) (fresh : ℕ) (vals : List α) :
    (addSortAll f fresh vals l).length = l.length + vals.length := by
  induction vals generalizing fresh l with
  | nil => rfl
  | cons val vals ih =>
    rw [addSortAll, ih, (listnodeAddSort_perm _ _ l).length_eq, List.length_cons, List.length_cons]
    omega

/-- A count goes up by a number, unless it wraps. -/
theorem toNat_add_ofNat (n : UInt32) (k : ℕ) :
    (n + UInt32.ofNat k).toNat = n.toNat + k ↔ n.toNat + k < 2 ^ 32 := by
  rw [UInt32.toNat_add, UInt32.toNat_ofNat']
  omega

omit [DecidableEq α] in
/-- Only the count of the list that changes matters. -/
theorem counted_setList (hc : ∀ j, (c j).toNat = (q.list j).length) {x : UInt32} :
    (∀ j, (Function.update c i x j).toNat = ((q.setList i l new).list j).length) ↔
      x.toNat = l.length := by
  rw [Sequences.list_setList]
  constructor
  · intro h
    have hi := h i
    rwa [Function.update_self, Function.update_self] at hi
  · intro h j
    rcases eq_or_ne j i with rfl | hj
    · rwa [Function.update_self, Function.update_self]
    · rw [Function.update_of_ne hj, Function.update_of_ne hj, hc]

omit [DecidableEq α] in
/-- A list with one more node, which is counted. -/
theorem counted_succ (hc : ∀ j, (c j).toNat = (q.list j).length)
    (hl : l.length = (q.list i).length + 1) :
    (∀ j, (Function.update c i (c i + 1) j).toNat = ((q.setList i l new).list j).length) ↔
      (q.list i).length + 1 < 2 ^ 32 := by
  rw [counted_setList hc, hl, ← hc i]
  exact toNat_add_ofNat (c i) 1

omit [DecidableEq ι] [DecidableEq α] in
/-- One node less. -/
theorem toNat_sub_eraseP {n : UInt32} {p : ℕ × α → Bool} (hn : n.toNat = l.length) (he : e ∈ l)
    (hp : p e) : (n - 1).toNat = (l.eraseP p).length := by
  have hpos := List.length_pos_of_mem he
  have hle : 1 ≤ n := UInt32.le_iff_toNat_le.2 (by rw [hn]; exact hpos)
  rw [UInt32.toNat_sub_of_le n 1 hle, List.length_eraseP_of_mem he hp, hn]
  rfl

/-- A call keeps the counts if, and only if, it counts what it adds. -/
theorem Rep.counted_perform (h : Rep cmp s q c) (hc : ∀ i, (c i).toNat = (q.list i).length)
    (hop : op.Valid s) :
    (∀ i, (op.counts q c i).toNat = ((op.spec cmp q).list i).length) ↔ op.Counts s := by
  have hnodes (i : ι) : (s.nodes i).length = (q.list i).length := by
    rw [h.nodes_eq, Sequences.addresses, List.length_map]
  have hmem {i : ι} {node : ℕ} (hnode : node ∈ s.nodes i) : node ∈ (q.list i).map Prod.fst := by
    rwa [h.nodes_eq] at hnode
  cases op with
  | listnodeAddOld i val =>
    rw [Op.Counts, hnodes]
    exact counted_succ hc List.length_append
  | listnodeAddSort i val =>
    rw [Op.Counts, hnodes]
    exact counted_succ hc (listnodeAddSort_perm ..).length_eq
  | listnodeAddAfter i pp val =>
    -- The node is added, but the count stays.
    refine iff_of_false ?_ id
    cases pp with
    | none =>
      rw [Op.spec, Op.counts, counted_setList hc, hc, List.length_cons]
      exact (Nat.lt_succ_self _).ne
    | some pp =>
      rw [Op.spec, Op.counts, counted_setList hc, hc, length_insertAfter (hmem (hop pp rfl))]
      exact (Nat.lt_succ_self _).ne
  | listnodeDelete i val =>
    refine iff_of_true ?_ trivial
    rw [Op.spec, Op.counts, counted_setList hc]
    split_ifs with hex
    · obtain ⟨e, he, hval⟩ := hex
      exact toNat_sub_eraseP (hc i) he (decide_eq_true hval)
    · rw [List.eraseP_of_forall_not fun e he => ?_]
      · exact hc i
      · rw [decide_eq_true_eq]
        exact fun hval => hex ⟨e, he, hval⟩
  | listDeleteNode i node =>
    obtain ⟨e, he, hnode⟩ := List.mem_map.1 (hmem hop)
    refine iff_of_true ?_ trivial
    rw [Op.spec, Op.counts, counted_setList hc]
    exact toNat_sub_eraseP (hc i) he (decide_eq_true hnode)
  | listAddNodePrev i current val =>
    rw [Op.Counts, hnodes]
    exact counted_succ hc (length_insertBefore (hmem hop))
  | listAddNodeNext i current val =>
    rw [Op.Counts, hnodes]
    exact counted_succ hc (length_insertAfter (hmem hop))
  | listAddList l m =>
    rw [Op.Counts, hnodes, hnodes, Op.spec, Op.counts, counted_setList hc, length_addSortAll,
      List.length_map, ← hc l]
    exact toNat_add_ofNat (c l) _
  | listDeleteAllNode i =>
    refine iff_of_true ?_ trivial
    rw [Op.spec, Op.counts, counted_setList hc]
    rfl

end Counts

omit [DecidableEq ι] [DecidableEq α] in

/-- The counts are right iff those of the representation are. -/
theorem Rep.counted_iff (h : Rep cmp s q c) :
    (∀ i, Counted s i) ↔ ∀ i, (c i).toNat = (q.list i).length := by
  refine forall_congr' fun i => ?_
  rw [Counted, h.count, h.nodes_eq, Sequences.addresses, List.length_map]

/-- Where the counts are right, no call decrements one below zero. -/
theorem Rep.not_wraps (h : Rep cmp s q c) (hc : ∀ i, Counted s i) (hop : op.Valid s)
    (hr : op.perform.result s = some ((), s')) (i : ι) : ¬Step.Wraps ⟨s, op, s'⟩ i := by
  rintro ⟨hdel, hlt⟩
  have h' := (h.perform hop).ensures () s' hr
  have hcount := h.counted_iff.1 hc
  -- A deletion that is counted right does not raise the count.
  have hcount' : (op.counts q c i).toNat ≤ (c i).toNat := by
    have hcounts : op.Counts s := by
      cases op with
      | listnodeDelete => trivial
      | listDeleteNode => trivial
      | _ => cases hdel
    rw [(h.counted_perform hcount hop).2 hcounts i, hcount i]
    cases op with
    | listnodeDelete j val =>
      obtain rfl : j = i := hdel
      rw [Op.spec, Sequences.list_setList, Function.update_self]
      exact List.eraseP_sublist.length_le
    | listDeleteNode j node =>
      obtain rfl : j = i := hdel
      rw [Op.spec, Sequences.list_setList, Function.update_self]
      exact List.eraseP_sublist.length_le
    | _ => cases hdel
  rw [h.count, h'.count, UInt32.lt_iff_toNat_lt] at hlt
  exact absurd hlt (not_lt.2 hcount')

/-- The counts are right in every state of a run, and none is decremented below zero, if,
    and only if, every call counts what it adds. -/
theorem counted_run_iff (h : Run cmp del steps s) :
    ((∀ i, Counted s i) ∧ ∀ step ∈ steps, ∀ i, Counted step.before i ∧ ¬step.Wraps i) ↔
      ∀ step ∈ steps, step.op.Counts step.before := by
  induction h with
  | new =>
    refine iff_of_true ⟨fun i => ?_, List.forall_mem_nil _⟩ (List.forall_mem_nil _)
    exact (rep_new.counted_iff).2 (fun _ => rfl) i
  | step op hrun hop hr ih =>
    obtain ⟨c, hc⟩ := hrun.rep
    have h' := (hc.perform hop).ensures () _ hr
    rw [List.forall_mem_append, List.forall_mem_append, List.forall_mem_singleton,
      List.forall_mem_singleton, ← ih, h'.counted_iff]
    constructor
    · rintro ⟨hs', hsteps, hstep⟩
      have hs := fun i => (hstep i).1
      exact ⟨⟨hs, hsteps⟩, (hc.counted_perform (hc.counted_iff.1 hs) hop).1 hs'⟩
    · rintro ⟨⟨hs, hsteps⟩, hcounts⟩
      exact ⟨(hc.counted_perform (hc.counted_iff.1 hs) hop).2 hcounts, hsteps,
        fun i => ⟨hs i, hc.not_wraps hs hop hr i⟩⟩

/-- The node that `listnode_add_after` adds is not counted, and deleting it decrements the
    count below zero. -/
theorem listnodeAddAfter_wraps : ¬∀ (steps : List (Step Unit ℕ Unit)) (s : Lists Unit ℕ Unit),
    Run (fun _ => none) (fun _ => none) steps s →
      (∀ i, Counted s i) ∧ ∀ step ∈ steps, ∀ i, Counted step.before i ∧ ¬step.Wraps i := by
  intro h
  have hnew : Run (fun _ : Unit => none) (fun _ => none) [] (new _ _ : Lists Unit ℕ Unit) := .new
  have hadd := hnew.step (.listnodeAddAfter () none 7)
    (fun node hnode => absurd hnode (Option.not_mem_none node)) rfl
  have hdel := hadd.step (.listDeleteNode () 0) (List.mem_singleton_self 0) rfl
  have hwraps := ((h _ _ hdel).2 _ (List.mem_append_right _ List.mem_cons_self) ()).2
  exact hwraps ⟨rfl, by decide⟩

/-- Three nodes are added, two of them in order; one is deleted as a node, and one by its data. -/
theorem counted_run_delete : ∃ (steps : List (Step Unit ℕ Unit)) (s : Lists Unit ℕ Unit),
    steps.map Step.op = [.listnodeAddSort () 7, .listnodeAddSort () 3, .listnodeAddOld () 9,
      .listDeleteNode () 0, .listnodeDelete () 9] ∧ s.nodes () = [1] ∧ s.data 1 = some 3 ∧
    (∀ i, Counted s i) ∧ ∀ step ∈ steps, ∀ i, Counted step.before i ∧ ¬step.Wraps i := by
  have hnew : Run (fun _ : Unit => some fun a b : ℕ => (a : ℤ) - b) (fun _ => none) []
    (new _ _ : Lists Unit ℕ Unit) := .new
  have hseven := hnew.step (.listnodeAddSort () 7) trivial rfl
  have hthree := hseven.step (.listnodeAddSort () 3) trivial rfl
  have hnine := hthree.step (.listnodeAddOld () 9) trivial rfl
  have hmem : 0 ∈ [1, 0, 2] := by decide
  have hnode := hnine.step (.listDeleteNode () 0) hmem rfl
  have hrun := hnode.step (.listnodeDelete () 9) trivial rfl
  refine ⟨_, _, rfl, rfl, rfl, (counted_run_iff hrun).2 ?_⟩
  have hroom {n : ℕ} (hn : n < 3) : n + 1 < 2 ^ 32 := by omega
  exact List.forall_mem_cons.2 ⟨hroom (show 0 < 3 by decide), List.forall_mem_cons.2
    ⟨hroom (show 1 < 3 by decide), List.forall_mem_cons.2 ⟨hroom (show 2 < 3 by decide),
      List.forall_mem_cons.2 ⟨trivial, List.forall_mem_singleton.2 trivial⟩⟩⟩⟩

end Lists

end Mksh
