import Mathlib.Algebra.Order.BigOperators.Group.Finset
import Mksh.Thread.Run

/-!
# Stopping the scheduler

When the scheduler is stopped (`threadMasterFree`), the records in the lists are freed.
A record that is not allocated is neither read nor freed, and in the end none are left,
and the counts are zero (`run_threadMasterFree`).
-/

namespace Mksh

open CString Process Intrusive Queues

variable {F A : Type} {m m' : Master F A} {q : Queues F A} {a : ℕ} {t : ThreadType}
  {thread : Thread F A} {l : List ℕ}

/-! ## Freeing -/

/-- Freeing a record, which has to be allocated. -/
def threadFree (a : ℕ) : Sched F A Unit := do
  let _ ← threadAt a
  modify fun m => { m with thread := Function.update m.thread a none }

/-- The loop over the records of a list, from one on. The counts are decremented. -/
def threadListFreeLoop (t : ThreadType) : ℕ → Option ℕ → Sched F A Unit
  | _, none => pure ()
  | 0, some _ => halt
  | n + 1, some a => do
    let _ ← threadAt a
    let next := ((← get).links a).next
    threadFree a
    modify fun m =>
      { m with list := Function.update m.list t { m.list t with count := (m.list t).count - 1 } }
    modify fun m => { m with alloc := if m.alloc = 0 then 2 ^ 64 - 1 else m.alloc - 1 }
    threadListFreeLoop t n next

/-- Free all unused thread. -/
def threadListFree (t : ThreadType) : Sched F A Unit := do
  let m ← get
  threadListFreeLoop t m.fresh (m.list t).head

/-- Stop thread scheduler. -/
def threadMasterFree : Sched F A Unit :=
  forEach threadListFree [.read, .write, .timer, .event, .ready, .unused]

/-- The records of a list, from one on, are freed. -/
structure ListFreed (t : ThreadType) (l : List ℕ) (m m' : Master F A) : Prop where
  links : m'.links = m.links
  fresh : m'.fresh = m.fresh
  thread (a : ℕ) : m'.thread a = if a ∈ l then none else m.thread a
  alloc : m'.alloc + l.length = m.alloc
  head (s : ThreadType) : (m'.list s).head = (m.list s).head
  count : (m'.list t).count + l.length = (m.list t).count
  count_of_ne {s : ThreadType} : s ≠ t → (m'.list s).count = (m.list s).count

theorem listFreed_nil (t : ThreadType) (m : Master F A) : ListFreed t [] m m where
  links := rfl
  fresh := rfl
  thread _ := (if_neg List.not_mem_nil).symm
  alloc := rfl
  head _ := rfl
  count := add_zero _
  count_of_ne _ := rfl

/-- The state after a record of a list has been freed. -/
def Master.freeRecord (t : ThreadType) (a : ℕ) (m : Master F A) : Master F A :=
  { m with
    thread := Function.update m.thread a none
    list := Function.update m.list t { m.list t with count := (m.list t).count - 1 }
    alloc := if m.alloc = 0 then 2 ^ 64 - 1 else m.alloc - 1 }

/-- A turn of the loop frees a record that is allocated. -/
theorem achieves_threadListFreeLoop_cons {thread : Thread F A} {n : ℕ}
    {Q : Unit → Master F A → Prop} (ha : m.thread a = some thread) :
    Achieves (threadListFreeLoop t (n + 1) (some a)) Q m ↔
      Achieves (threadListFreeLoop t n (m.links a).next) Q (m.freeRecord t a) := by
  rw [threadListFreeLoop, achieves_bind, achieves_threadAt ha, achieves_bind, achieves_get,
    achieves_bind, threadFree, achieves_bind, achieves_threadAt ha]
  simp only [achieves_modify, achieves_bind]
  rfl

/-- After a record, the rest of the list is freed. -/
theorem ListFreed.cons (hnot : a ∉ l) (halloc : m.alloc ≠ 0)
    (h : ListFreed t l (m.freeRecord t a) m') : ListFreed t (a :: l) m m' := by
  have halloc' := h.alloc
  have hcount := h.count
  rw [Master.freeRecord] at halloc' hcount
  dsimp only at halloc' hcount
  rw [if_neg halloc] at halloc'
  rw [Function.update_self] at hcount
  dsimp only at hcount
  refine ⟨h.links, h.fresh, fun b => ?_, ?_, fun s => ?_, ?_, fun hs => ?_⟩
  · rw [h.thread, Master.freeRecord]
    dsimp only
    -- The first record is freed here, the others by the rest of the loop.
    rcases eq_or_ne b a with rfl | hne
    · rw [if_neg hnot, if_pos List.mem_cons_self, Function.update_self]
    · rw [Function.update_of_ne hne]
      exact if_congr (by rw [List.mem_cons, or_iff_right hne]) rfl rfl
  · rw [List.length_cons]
    omega
  · rw [h.head, Master.freeRecord]
    dsimp only
    rcases eq_or_ne s t with rfl | hs
    · rw [Function.update_self]
    · rw [Function.update_of_ne hs]
  · rw [List.length_cons]
    push_cast
    omega
  · rw [h.count_of_ne hs, Master.freeRecord]
    dsimp only
    rw [Function.update_of_ne hs]

/-- The loop over a list of records that are allocated frees them. -/
theorem achieves_threadListFreeLoop {next : Option ℕ} {n : ℕ} (hchain : Chain m.links next l none)
    (hn : l.length ≤ n) (hnodup : l.Nodup) (hthread : ∀ a ∈ l, m.thread a ≠ none)
    (halloc : l.length ≤ m.alloc) :
    Achieves (threadListFreeLoop t n l.head?) (fun _ m' => ListFreed t l m m') m := by
  induction l generalizing m next n with
  | nil =>
    rw [List.head?_nil, threadListFreeLoop, achieves_pure]
    exact listFreed_nil t m
  | cons a l ih =>
    rw [List.length_cons] at halloc hn
    obtain ⟨n, rfl⟩ : ∃ k, n = k + 1 := Nat.exists_eq_succ_of_ne_zero (by omega)
    obtain ⟨hlinks, hrest⟩ := hchain
    obtain ⟨hnot, hnodup⟩ := List.nodup_cons.1 hnodup
    obtain ⟨thread, ha⟩ := Option.ne_none_iff_exists'.1 (hthread a List.mem_cons_self)
    have hnext : (m.links a).next = l.head? := by
      rw [hlinks, Option.or_none]
    have halloc' : (m.freeRecord t a).alloc = m.alloc - 1 := if_neg (by omega)
    rw [List.head?_cons, achieves_threadListFreeLoop_cons ha, hnext]
    -- The others are still allocated.
    refine Achieves.mono (ih (m := m.freeRecord t a) hrest (by omega) hnodup ?_ (by omega))
      fun _ m' h => h.cons hnot (by omega)
    intro b hb
    have hne : b ≠ a := fun heq => hnot (heq ▸ hb)
    rw [Master.freeRecord]
    dsimp only
    rw [Function.update_of_ne hne]
    exact hthread b (List.mem_cons_of_mem a hb)

/-- The records in the lists of some types are freed. -/
structure Freed (q : Queues F A) (ts : Finset ThreadType) (m m' : Master F A) : Prop where
  links : m'.links = m.links
  fresh : m'.fresh = m.fresh
  head (t : ThreadType) : (m'.list t).head = (m.list t).head
  thread (a : ℕ) : m'.thread a = if ∃ t ∈ ts, a ∈ q.addresses t then none else m.thread a
  alloc : m'.alloc + ∑ t ∈ ts, (q t).length = m.alloc
  count (t : ThreadType) : (m'.list t).count = if t ∈ ts then 0 else ((q t).length : ℤ)

theorem Rep.length_eq (h : Rep m q none) : m.alloc = ∑ t, (q t).length := by
  have hcard := congrArg Multiset.card h.held
  rw [Multiset.card_add, Multiset.card_sum, Multiset.card_range] at hcard
  simpa [Queues.addresses, h.alloc] using hcard.symm

theorem Rep.freed_empty (h : Rep m q none) : Freed q ∅ m m where
  links := rfl
  fresh := rfl
  head _ := rfl
  thread _ := by simp
  alloc := by simp
  count t := by
    rw [(h.isList t).count]
    simp [Queues.addresses]

/-- Another list is freed. -/
theorem Rep.achieves_threadListFree (h : Rep m q none) {ts : Finset ThreadType}
    (hfreed : Freed q ts m m') (ht : t ∉ ts) :
    Achieves (threadListFree t) (fun _ m'' => Freed q (insert t ts) m m'') m' := by
  have hlist := h.isList t
  have hlen : (q.addresses t).length = (q t).length := List.length_map ..
  rw [threadListFree, achieves_bind, achieves_get, hfreed.head, hlist.head]
  have hchain : Chain m'.links none (q.addresses t) none := by
    rw [hfreed.links]
    exact hlist.chain
  refine (achieves_threadListFreeLoop hchain ?_ hlist.nodup ?_ ?_).mono fun _ m'' h' => ?_
  · rw [hfreed.fresh, hlen]
    exact h.length_le t
  · intro a ha
    rw [hfreed.thread, if_neg]
    · obtain ⟨e, he, rfl⟩ := List.mem_map.1 ha
      rw [h.thread he]
      exact Option.some_ne_none _
    · rintro ⟨s, hs, hmem⟩
      exact h.areLists.disjoint (ne_of_mem_of_not_mem hs ht) a hmem ha
  · -- There are as many records as in all of the lists.
    have hle : ∑ s ∈ insert t ts, (q s).length ≤ ∑ s, (q s).length :=
      Finset.sum_le_sum_of_subset (Finset.subset_univ _)
    have hsum := hfreed.alloc
    rw [h.length_eq] at hsum
    rw [Finset.sum_insert ht] at hle
    omega
  · have halloc := h'.alloc
    have hcount := h'.count
    rw [hlen] at halloc hcount
    refine ⟨h'.links.trans hfreed.links, h'.fresh.trans hfreed.fresh,
      fun s => (h'.head s).trans (hfreed.head s), fun a => ?_, ?_, fun s => ?_⟩
    · rw [h'.thread, hfreed.thread]
      by_cases ha : a ∈ q.addresses t
      · rw [if_pos ha, if_pos ⟨t, Finset.mem_insert_self t ts, ha⟩]
      · simp only [Finset.exists_mem_insert, ha, false_or, if_false]
    · rw [Finset.sum_insert ht, ← hfreed.alloc]
      omega
    · rcases eq_or_ne s t with rfl | hs
      · rw [hfreed.count, if_neg ht] at hcount
        rw [if_pos (Finset.mem_insert_self s ts)]
        omega
      · rw [h'.count_of_ne hs, hfreed.count]
        simp only [Finset.mem_insert, hs, false_or]

theorem Rep.achieves_forEach_threadListFree (h : Rep m q none) {ts : Finset ThreadType}
    {types : List ThreadType} (hfreed : Freed q ts m m') (hnodup : types.Nodup)
    (hts : ∀ t ∈ types, t ∉ ts) : Achieves (forEach threadListFree types)
      (fun _ m'' => Freed q (types.toFinset ∪ ts) m m'') m' := by
  induction types generalizing m' ts with
  | nil => exact achieves_pure.2 (by simpa using hfreed)
  | cons t types ih =>
    obtain ⟨hnot, hnodup⟩ := List.nodup_cons.1 hnodup
    rw [forEach, achieves_bind]
    refine (h.achieves_threadListFree hfreed (hts t List.mem_cons_self)).mono fun _ m₁ h₁ => ?_
    refine (ih h₁ hnodup fun s hs hmem => ?_).mono fun _ m₂ h₂ => ?_
    · rcases Finset.mem_insert.1 hmem with rfl | hmem
      · exact hnot hs
      · exact hts s (List.mem_cons_of_mem t hs) hmem
    · rwa [List.toFinset_cons, Finset.insert_union, ← Finset.union_insert]

variable [DecidableEq A] {calls : List (Call F A)}

/-- Whenever the scheduler is stopped, each record that has been allocated is freed, just
    once, and none is read or freed that is not allocated. -/
theorem run_threadMasterFree (h : Run calls m) : Achieves threadMasterFree (fun _ m' =>
    (∀ a, m'.thread a = none) ∧ m'.alloc = 0 ∧ ∀ t, (m'.list t).count = 0) m := by
  have hrep := h.scheduled.1.rep
  refine (hrep.achieves_forEach_threadListFree hrep.freed_empty (by decide) (by simp)).mono
    fun _ m' h' => ?_
  have huniv : [.read, .write, .timer, .event, .ready, .unused].toFinset ∪ ∅ =
      (Finset.univ : Finset ThreadType) := by decide
  rw [huniv] at h'
  refine ⟨fun a => ?_, ?_, fun t => by rw [h'.count, if_pos (Finset.mem_univ t)]⟩
  · rw [h'.thread]
    split_ifs with hmem
    · rfl
    · -- A record is in one of the lists.
      by_contra hne
      obtain ⟨thread, ha⟩ := Option.ne_none_iff_exists'.1 hne
      obtain ⟨t, l₁, task, l₂, hq⟩ := hrep.exists_of_thread ha
      refine hmem ⟨t, Finset.mem_univ t, Rep.mem_addresses (e := (a, task)) ?_⟩
      rw [hq]
      exact List.mem_append_right l₁ List.mem_cons_self
  · have halloc := h'.alloc
    rw [hrep.length_eq] at halloc
    omega

/-- Two events are added, and the scheduler is stopped. -/
theorem run_threadMasterFree_addEvent : ∃ m : Master Unit ℕ, m.alloc = 2 ∧
    Achieves threadMasterFree (fun _ m' =>
      (∀ a, m'.thread a = none) ∧ m'.alloc = 0 ∧ ∀ t, (m'.list t).count = 0) m := by
  have hadd : Run (F := Unit) [⟨threadMasterCreate, .addEvent () 7 1, .added (some 0)⟩] _ :=
    .call .create trivial rfl
  have hagain := hadd.call (show Op.Valid _ (.addEvent () 8 1) from trivial) rfl
  exact ⟨_, rfl, run_threadMasterFree hagain⟩

end Mksh
