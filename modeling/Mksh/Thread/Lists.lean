import Mathlib.Algebra.BigOperators.Group.Finset.Basic
import Mathlib.Data.Fintype.Defs
import Mksh.Thread.Basic

/-!
# The lists of threads

`Rep m q out`: the master `m` represents the queues `q`, which give the threads in
each of the lists, in order. Every record is in one of them, and there it has the
type of the list. All of them but `out`, if there is one: the record that is being
moved from a list to another one, and not linked meanwhile.

What the lists do to a represented master is determined for each operation on
them (`Rep.add`, `Rep.addBefore`, `Rep.delete`), and from these for each function
that moves records.
-/

namespace Mksh

open CString Process Intrusive

variable {F A : Type}

/-! ## Queues -/

instance : Fintype ThreadType where
  elems := {.read, .write, .timer, .event, .ready, .unused}
  complete t := by cases t <;> decide

/-- The threads in the lists, in order, each with its address. -/
abbrev Queues (F A : Type) := ThreadType → List (ℕ × Task F A)

namespace Queues

/-- The records in a list, in order. -/
def addresses (q : Queues F A) (t : ThreadType) : List ℕ := (q t).map Prod.fst

theorem addresses_update (q : Queues F A) (t : ThreadType) (l : List (ℕ × Task F A)) :
    addresses (Function.update q t l) = Function.update q.addresses t (l.map Prod.fst) :=
  funext fun s => Function.apply_update (fun _ => List.map Prod.fst) q t l s

/-- A sum over the queues, when one of them changes. -/
theorem sum_update {M : Type*} [AddCommMonoid M] (f : List (ℕ × Task F A) → M) {q : Queues F A}
    {t : ThreadType} {s : Finset ThreadType} (ht : t ∈ s) (l : List (ℕ × Task F A)) :
    ∑ x ∈ s, f (Function.update q t l x) + f (q t) = ∑ x ∈ s, f (q x) + f l := by
  have hrest : ∑ x ∈ s.erase t, f (Function.update q t l x) = ∑ x ∈ s.erase t, f (q x) :=
    Finset.sum_congr rfl fun x hx => by rw [Function.update_of_ne (Finset.ne_of_mem_erase hx)]
  calc _ = f l + ∑ x ∈ s.erase t, f (q x) + f (q t) := by
        rw [← Finset.add_sum_erase _ _ ht, hrest, Function.update_self]
    _ = f (q t) + ∑ x ∈ s.erase t, f (q x) + f l := by ac_rfl
    _ = _ := by rw [Finset.add_sum_erase _ (fun x => f (q x)) ht]

end Queues

/-! ## Represented masters -/

namespace Master

variable {m : Master F A} {a : ℕ} {t : ThreadType} {f : Heap ℕ → Header ℕ → Heap ℕ × Header ℕ}
  {thread : Thread F A} {kind : FdKind} {fds : Finset ℕ}

@[simp]
theorem onList_fdset : (m.onList t f).fdset = m.fdset := rfl

@[simp]
theorem setThread_fdset : (m.setThread a thread).fdset = m.fdset := rfl

@[simp]
theorem setThread_thread_self : (m.setThread a thread).thread a = some thread :=
  Function.update_self ..

@[simp]
theorem setFdset_fdset : (m.setFdset kind fds).fdset = Function.update m.fdset kind fds := rfl

end Master

/-- The master represents the queues; a record may be out of them. -/
structure Rep (m : Master F A) (q : Queues F A) (out : Option ℕ) : Prop where
  areLists : AreLists m.links m.list q.addresses
  thread {t : ThreadType} {e : ℕ × Task F A} : e ∈ q t → m.thread e.1 = some ⟨e.2, t⟩
  held : ∑ t, (q.addresses t : Multiset ℕ) + out.toList = Multiset.range m.fresh
  links {a : ℕ} : out = some a → m.links a = ⟨none, none⟩
  thread_none {a : ℕ} : m.fresh ≤ a → m.thread a = none
  alloc : m.alloc = m.fresh

variable {m : Master F A} {q : Queues F A} {out out' : Option ℕ} {a : ℕ} {t : ThreadType}
  {task : Task F A} {e : ℕ × Task F A} {l l₁ l₂ : List (ℕ × Task F A)}

theorem rep_create : Rep (threadMasterCreate : Master F A) (fun _ => []) none where
  areLists := ⟨fun _ => isList_empty _, fun _ _ ha => absurd ha List.not_mem_nil⟩
  thread he := absurd he List.not_mem_nil
  held := by simp [Queues.addresses, threadMasterCreate]
  links h := nomatch h
  thread_none _ := rfl
  alloc := rfl

namespace Rep

theorem isList (h : Rep m q out) (t : ThreadType) : IsList m.links (m.list t) (q.addresses t) :=
  h.areLists.isList t

theorem mem_addresses (he : e ∈ q t) : e.1 ∈ q.addresses t := List.mem_map_of_mem he

theorem notMem_of_out (h : Rep m q (some a)) (t : ThreadType) : a ∉ q.addresses t := by
  have hnodup : (∑ t, (q.addresses t : Multiset ℕ) + ({a} : Multiset ℕ)).Nodup := by
    rw [show ({a} : Multiset ℕ) = ((some a).toList : Multiset ℕ) from rfl, h.held]
    exact Multiset.nodup_range _
  intro ha
  refine Multiset.disjoint_left.1 (Multiset.nodup_add.1 hnodup).2.2 ?_
    (Multiset.mem_singleton_self a)
  exact Multiset.mem_sum.2 ⟨t, Finset.mem_univ t, ha⟩

theorem lt_of_mem (h : Rep m q out) (ha : a ∈ q.addresses t) : a < m.fresh := by
  have hmem : a ∈ ∑ t, (q.addresses t : Multiset ℕ) + (out.toList : Multiset ℕ) :=
    Multiset.mem_add.2 (.inl (Multiset.mem_sum.2 ⟨t, Finset.mem_univ t, ha⟩))
  rwa [h.held, Multiset.mem_range] at hmem

/-- Every record is in a list, unless it is out. -/
theorem exists_of_thread (h : Rep m q none) {thread : Thread F A} (ha : m.thread a = some thread) :
    ∃ t l₁ task l₂, q t = l₁ ++ (a, task) :: l₂ := by
  have hlt : a < m.fresh := by
    by_contra hle
    rw [h.thread_none (not_lt.1 hle)] at ha
    cases ha
  have hmem : a ∈ ∑ t, (q.addresses t : Multiset ℕ) := by
    have hheld := h.held
    rw [Option.toList_none, Multiset.coe_nil, add_zero] at hheld
    rwa [hheld, Multiset.mem_range]
  obtain ⟨t, -, ht⟩ := Multiset.mem_sum.1 hmem
  obtain ⟨⟨b, task⟩, he, rfl⟩ := List.mem_map.1 (Multiset.mem_coe.1 ht)
  obtain ⟨l₁, l₂, hq⟩ := List.append_of_mem he
  exact ⟨t, l₁, task, l₂, hq⟩

theorem length_le (h : Rep m q out) (t : ThreadType) : (q t).length ≤ m.fresh := by
  have hsub : (q.addresses t : Multiset ℕ) ≤ Multiset.range m.fresh := by
    refine (Multiset.le_iff_subset ?_).2 fun a ha => Multiset.mem_range.2 (h.lt_of_mem ha)
    exact (h.isList t).nodup
  simpa [Queues.addresses] using Multiset.card_le_card hsub

/-- What is in the sets of descriptors does not matter. -/
theorem setFdset (h : Rep m q out) (kind : FdKind) (fds : Finset ℕ) :
    Rep (m.setFdset kind fds) q out :=
  ⟨h.areLists, h.thread, h.held, h.links, h.thread_none, h.alloc⟩

/-- Nor does what is in the record that is out. -/
theorem setThread (h : Rep m q (some a)) (ha : a < m.fresh) (thread : Thread F A) :
    Rep (m.setThread a thread) q (some a) where
  areLists := h.areLists
  thread {t e} he := by
    have hne : e.1 ≠ a := fun heq => h.notMem_of_out t (heq ▸ mem_addresses he)
    exact (Function.update_of_ne hne _ _).trans (h.thread he)
  held := h.held
  links := h.links
  thread_none hb := (Function.update_of_ne (ha.trans_le hb).ne' _ _).trans (h.thread_none hb)
  alloc := h.alloc

theorem out_lt (h : Rep m q (some a)) : a < m.fresh := by
  have hmem : a ∈ ∑ t, (q.addresses t : Multiset ℕ) + ((some a).toList : Multiset ℕ) :=
    Multiset.mem_add.2 (.inr (Multiset.mem_singleton_self a))
  rwa [h.held, Multiset.mem_range] at hmem

theorem calloc (h : Rep m q none) : Rep m.calloc q (some m.fresh) where
  areLists := by
    refine ⟨fun t => (h.isList t).congr fun a ha => ?_, h.areLists.disjoint⟩
    exact Function.update_of_ne (h.lt_of_mem ha).ne _ _
  thread := h.thread
  held := by
    have hheld := h.held
    rw [Option.toList_none, Multiset.coe_nil, add_zero] at hheld
    rw [hheld]
    exact (add_comm _ _).trans ((Multiset.singleton_add _ _).trans (Multiset.range_succ _).symm)
  links hout := Option.some.inj hout ▸ Function.update_self ..
  thread_none ha := h.thread_none (Nat.le_of_succ_le ha)
  alloc := congrArg (· + 1) h.alloc

/-! ### Operations on a list -/

/-- One of the lists changes, and with it which record is out. -/
theorem onList (h : Rep m q out) {f : Heap ℕ → Header ℕ → Heap ℕ × Header ℕ}
    (hl : AreLists (f m.links (m.list t)).1 (Function.update m.list t (f m.links (m.list t)).2)
      (Function.update q.addresses t (l.map Prod.fst)))
    (hthread : ∀ e ∈ l, m.thread e.1 = some ⟨e.2, t⟩)
    (hheld : (l.map Prod.fst ++ out'.toList).Perm (q.addresses t ++ out.toList))
    (hlinks : ∀ a, out' = some a → (f m.links (m.list t)).1 a = ⟨none, none⟩) :
    Rep (m.onList t f) (Function.update q t l) out' where
  areLists := by
    rw [Queues.addresses_update]
    exact hl
  thread {s e} he := by
    rcases eq_or_ne s t with rfl | hs
    · rw [Function.update_self] at he
      exact hthread e he
    · rw [Function.update_of_ne hs] at he
      exact h.thread he
  held := by
    -- The addresses that are not of the list `t` stay where they are.
    have hsum := Queues.sum_update (fun l => (l.map Prod.fst : Multiset ℕ)) (q := q)
      (Finset.mem_univ t) l
    have hperm : (l.map Prod.fst : Multiset ℕ) + out'.toList = q.addresses t + out.toList :=
      Multiset.coe_eq_coe.2 hheld
    refine add_right_cancel (b := (q.addresses t : Multiset ℕ)) ?_
    calc _ = (∑ x, ((Function.update q t l x).map Prod.fst : Multiset ℕ) + q.addresses t) +
          out'.toList := add_right_comm _ _ _
      _ = (∑ x, (q.addresses x : Multiset ℕ) + l.map Prod.fst) + out'.toList :=
        congrArg (· + (out'.toList : Multiset ℕ)) hsum
      _ = (∑ x, (q.addresses x : Multiset ℕ) + out.toList) + q.addresses t := by
        rw [add_assoc, hperm, add_comm (q.addresses t : Multiset ℕ), add_assoc]
      _ = Multiset.range m.fresh + q.addresses t := by rw [h.held]
  links := hlinks _
  thread_none := h.thread_none
  alloc := h.alloc

/-- The record that is out is added to the list of its type. -/
theorem add (h : Rep m q (some a)) (ha : m.thread a = some ⟨task, t⟩) :
    Rep (m.onList t (Intrusive.add a)) (Function.update q t (q t ++ [(a, task)])) none := by
  refine h.onList ?_ ?_ ?_ fun _ h => nomatch h
  · rw [List.map_append]
    exact h.areLists.add h.notMem_of_out t
  · intro e he
    rcases List.mem_append.1 he with he | he
    · exact h.thread he
    · rw [List.mem_singleton.1 he, ha]
  · simp [Queues.addresses]

theorem addBefore (h : Rep m q (some a)) (ha : m.thread a = some ⟨task, t⟩)
    (hq : q t = l₁ ++ e :: l₂) :
    Rep (m.onList t (Intrusive.addBefore e.1 a))
      (Function.update q t (l₁ ++ (a, task) :: e :: l₂)) none := by
  refine h.onList ?_ ?_ ?_ fun _ h => nomatch h
  · rw [List.map_append]
    refine h.areLists.addBefore h.notMem_of_out ?_
    rw [Queues.addresses, hq, List.map_append, List.map_cons]
  · intro b hb
    have hmem : b = (a, task) ∨ b ∈ q t := by
      rw [hq]
      simp only [List.mem_append, List.mem_cons] at hb ⊢
      tauto
    rcases hmem with rfl | hmem
    · exact ha
    · exact h.thread hmem
  · rw [Queues.addresses, hq, Option.toList_none, Option.toList_some, List.append_nil,
      List.map_append, List.map_append]
    exact List.perm_middle.trans (List.perm_append_singleton a _).symm

theorem delete (h : Rep m q none) (hq : q t = l₁ ++ e :: l₂) :
    Rep (m.onList t (Intrusive.delete e.1)) (Function.update q t (l₁ ++ l₂)) (some e.1) := by
  refine h.onList ?_ ?_ ?_ fun a ha => Option.some.inj ha ▸ delete_self _ _ _
  · rw [List.map_append]
    refine h.areLists.delete ?_
    rw [Queues.addresses, hq, List.map_append, List.map_cons]
  · intro b hb
    refine h.thread (t := t) ?_
    rw [hq]
    simp only [List.mem_append, List.mem_cons] at hb ⊢
    tauto
  · rw [Queues.addresses, hq, Option.toList_none, Option.toList_some, List.append_nil,
      List.map_append, List.map_append]
    exact (List.perm_append_singleton e.1 _).trans List.perm_middle.symm

end Rep

/-! ## Functions on the lists -/

section Functions

variable {thread : Thread F A} {func : F} {arg : A} {type : ThreadType}

@[simp]
theorem achieves_threadListAdd {Q : Unit → Master F A → Prop} :
    Achieves (threadListAdd t a) Q m ↔ Q () (m.onList t (add a)) := achieves_modify

@[simp]
theorem achieves_threadListAddBefore {point : ℕ} {Q : Unit → Master F A → Prop} :
    Achieves (threadListAddBefore t point a) Q m ↔ Q () (m.onList t (addBefore point a)) :=
  achieves_modify

@[simp]
theorem achieves_threadListDelete {Q : Unit → Master F A → Prop} :
    Achieves (threadListDelete t a) Q m ↔ Q () (m.onList t (delete a)) := achieves_modify

@[simp]
theorem achieves_setThread {Q : Unit → Master F A → Prop} :
    Achieves (setThread a thread) Q m ↔ Q () (m.setThread a thread) := achieves_modify

theorem achieves_threadAt {Q : Thread F A → Master F A → Prop} (ha : m.thread a = some thread) :
    Achieves (threadAt a) Q m ↔ Q thread m := by
  simp [threadAt, ha]

theorem achieves_setType {Q : Unit → Master F A → Prop} (ha : m.thread a = some thread) :
    Achieves (setType a type) Q m ↔ Q () (m.setThread a { thread with type }) := by
  rw [setType, achieves_bind, achieves_threadAt ha, achieves_setThread]

theorem achieves_setU {u : ThreadU} {Q : Unit → Master F A → Prop}
    (ha : m.thread a = some thread) :
    Achieves (setU a u) Q m ↔ Q () (m.setThread a { thread with u }) := by
  rw [setU, achieves_bind, achieves_threadAt ha, achieves_setThread]

namespace Rep

/-- The record that is out passes the assertions. -/
theorem achieves_threadAddUnuse {Q : Unit → Master F A → Prop} (h : Rep m q (some a))
    (ha : m.thread a = some ⟨task, .unused⟩) :
    Achieves (threadAddUnuse a) Q m ↔ Q () (m.onList .unused (Intrusive.add a)) := by
  simp [threadAddUnuse, achieves_threadAt ha, h.links rfl]

/-- The record that is out is not used any more. -/
theorem achieves_retire {Q : Unit → Master F A → Prop} (h : Rep m q (some a))
    (ha : m.thread a = some thread)
    (hQ : ∀ m', Rep m' (Function.update q .unused (q .unused ++ [(a, thread.toTask)])) none →
      m'.fdset = m.fdset → Q () m') :
    Achieves (setType a .unused) (fun _ => Achieves (threadAddUnuse a) Q) m := by
  have h' := h.setThread h.out_lt { thread with type := .unused }
  rw [achieves_setType ha, h'.achieves_threadAddUnuse Master.setThread_thread_self]
  exact hQ _ (h'.add Master.setThread_thread_self) rfl

/-- Running the thread whose record is out. -/
theorem achieves_threadRun {Q : Thread F A → Master F A → Prop} (h : Rep m q (some a))
    (ha : m.thread a = some thread)
    (hQ : ∀ m', Rep m' (Function.update q .unused (q .unused ++ [(a, thread.toTask)])) none →
      m'.fdset = m.fdset → Q thread m') :
    Achieves (threadRun a) Q m := by
  rw [threadRun, achieves_bind, achieves_threadAt ha, achieves_bind]
  simp only [achieves_bind, achieves_pure]
  exact h.achieves_retire ha hQ

theorem achieves_threadTrimHead_of_nil {Q : Option ℕ → Master F A → Prop} (h : Rep m q out)
    (hq : q t = []) : Achieves (threadTrimHead t) Q m ↔ Q none m := by
  have hhead : (m.list t).head = none := by
    rw [(h.isList t).head, Queues.addresses, hq]
    rfl
  simp [threadTrimHead, hhead]

theorem achieves_threadTrimHead_of_cons {Q : Option ℕ → Master F A → Prop} (h : Rep m q out)
    (hq : q t = e :: l) :
    Achieves (threadTrimHead t) Q m ↔ Q (some e.1) (m.onList t (Intrusive.delete e.1)) := by
  have hhead : (m.list t).head = some e.1 := by
    rw [(h.isList t).head, Queues.addresses, hq]
    rfl
  simp [threadTrimHead, hhead]

/-- A new record is an unused one, or comes from the heap. -/
theorem achieves_threadGet {Q : ℕ → Master F A → Prop} (h : Rep m q none)
    (hQ : ∀ a m' l u, Rep m' (Function.update q .unused l) (some a) →
      m'.thread a = some ⟨⟨func, arg, u⟩, type⟩ → m'.fdset = m.fdset → Q a m') :
    Achieves (threadGet type func arg) Q m := by
  rcases hq : q .unused with _ | ⟨e, l⟩
  · have h' : Rep m.calloc (Function.update q .unused []) (some m.fresh) := by
      rw [← hq, Function.update_eq_self]
      exact h.calloc
    simp only [threadGet, achieves_bind, h.achieves_threadTrimHead_of_nil hq, threadCalloc,
      achieves_get, achieves_modify, achieves_pure, achieves_setThread]
    exact hQ _ _ _ _ (h'.setThread h'.out_lt _) Master.setThread_thread_self rfl
  · have h' := h.delete (show q .unused = [] ++ e :: l from hq)
    simp only [threadGet, achieves_bind, h.achieves_threadTrimHead_of_cons hq, achieves_get,
      achieves_pure, achieves_setThread]
    exact hQ _ _ _ _ (h'.setThread h'.out_lt _) Master.setThread_thread_self rfl

end Rep

end Functions

/-! ## What the lists show -/

/-- The addresses in a list, read off the links. -/
def Master.addresses (m : Master F A) (t : ThreadType) : List ℕ :=
  nodes m.links m.fresh (m.list t).head

/-- The threads in a list, in order, read off the links. -/
def Master.queue (m : Master F A) : Queues F A := fun t =>
  (m.addresses t).filterMap fun a => (m.thread a).map fun thread => (a, thread.toTask)

theorem Rep.addresses_eq (h : Rep m q out) : m.addresses = q.addresses :=
  funext fun t => (h.isList t).nodes <| by
    rw [Queues.addresses, List.length_map]
    exact h.length_le t

/-- The queues that a master represents are those that its lists show. -/
theorem Rep.queue_eq (h : Rep m q out) : m.queue = q := by
  funext t
  have hread : ∀ e ∈ q t, (m.thread e.1).map (fun thread => (e.1, thread.toTask)) = some e := by
    intro e he
    rw [h.thread he]
    rfl
  rw [Master.queue, h.addresses_eq, Queues.addresses, List.filterMap_map]
  exact (List.filterMap_congr hread).trans List.filterMap_some

end Mksh
