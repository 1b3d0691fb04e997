import Mksh.Thread.Run

/-!
# Cancelling a thread again

A thread that has been fetched or cancelled is not used any more, and its record is among the
unused ones. When it is cancelled all the same, an assertion fails if the record is linked to
other ones. But if it is the only one, then it is not linked to any, and is added to the list a
second time: it ends up linked to itself, and is given to two threads that are added later
(`threadCancel_unused`).
-/

namespace Mksh

open CString Process Intrusive

variable {F A : Type} {m : Master F A} {q : Queues F A} {a : ℕ} {l₁ l₂ : List ℕ}

/-- All lists are well-formed, and each record is in just one of them. -/
structure InLists (m : Master F A) (l : ThreadType → List ℕ) : Prop where
  isList (t : ThreadType) : IsList m.links (m.list t) (l t)
  existsUnique {a : ℕ} {thread : Thread F A} : m.thread a = some thread → ∃! t, a ∈ l t

/-- Two events that are added one after the other both get the record. -/
def IsShared (a : ℕ) (m : Master F A) : Prop :=
  ∀ (func func' : F) (arg arg' : A) (val val' : ℤ),
    Achieves (do
      let b ← threadAddEvent func arg val
      let c ← threadAddEvent func' arg' val'
      return (b, c)) (fun r _ => r = (a, a)) m

/-- The record of an unused thread passes the assertions if it is the only one. -/
theorem Rep.achieves_threadCancel_unused {Q : Unit → Master F A → Prop} (h : Rep m q none)
    (hq : q.addresses .unused = l₁ ++ a :: l₂) : Achieves (threadCancel a) Q m ↔
      (l₁ = [] ∧ l₂ = []) ∧ Q () (m.onList .unused (Intrusive.add a)) := by
  have hmem : a ∈ q.addresses .unused := by
    rw [hq]
    exact List.mem_append_right _ List.mem_cons_self
  obtain ⟨⟨a, task⟩, he, rfl⟩ := List.mem_map.1 hmem
  have hthread : m.thread a = some ⟨task, .unused⟩ := h.thread he
  -- The type is the one that is set, and the links are those of its place.
  have hset : m.setThread a ⟨task, .unused⟩ = m := by
    rw [Master.setThread, ← hthread, Function.update_eq_self]
  have hlinks : m.links a = ⟨l₂.head?, l₁.getLast?⟩ := (hq ▸ h.isList .unused).links
  rw [threadCancel, achieves_bind, achieves_threadAt hthread, achieves_bind, threadCancelType,
    achieves_pure, achieves_bind, achieves_setType hthread, hset, threadAddUnuse]
  simp only [achieves_bind, achieves_get, achieves_threadAt hthread, hlinks, achieves_ite,
    achieves_threadListAdd, achieves_halt, List.head?_eq_none_iff, List.getLast?_eq_none_iff,
    and_true, and_comm (a := l₂ = [])]
  by_cases hnil : l₁ = [] ∧ l₂ = []
  · rw [if_pos hnil, and_iff_right hnil]
  · rw [if_neg hnil]
    exact iff_of_false not_false fun h => hnil h.1

/-- The record at the head of the unused ones is given to a new event, whatever its links. -/
theorem achieves_threadAddEvent {func : F} {arg : A} {val : ℤ} {Q : ℕ → Master F A → Prop}
    (hhead : (m.list .unused).head = some a)
    (hQ : ∀ m', m'.list .unused = (Intrusive.delete a m.links (m.list .unused)).2 → Q a m') :
    Achieves (threadAddEvent func arg val) Q m := by
  simp only [threadAddEvent, threadGet, threadTrimHead, hhead, achieves_bind, achieves_get,
    achieves_threadListDelete, achieves_pure, achieves_setThread, achieves_threadListAdd]
  rw [achieves_setU Master.setThread_thread_self]
  refine hQ _ ?_
  rfl

/-- The lists do not remain well-formed. -/
theorem Rep.not_inLists (h : Rep m q none) (ha : a ∈ q.addresses .unused) :
    ¬Achieves (threadCancel a) (fun _ m' => ∃ l, InLists m' l) m := by
  obtain ⟨l₁, l₂, hq⟩ := List.append_of_mem ha
  rw [h.achieves_threadCancel_unused hq]
  rintro ⟨⟨rfl, rfl⟩, l, hl⟩
  have hlist := h.isList .unused
  rw [hq] at hlist
  exact not_isList_add hlist _ (hl.isList .unused)

/-- A record that is linked to itself is given to all events. -/
theorem isShared_of_prev (hhead : (m.list .unused).head = some a)
    (hprev : (m.links a).prev ≠ none) : IsShared a m := by
  intro func func' arg arg' val val'
  rw [achieves_bind]
  refine achieves_threadAddEvent hhead fun m₁ hm₁ => ?_
  have hhead₁ : (m₁.list .unused).head = some a := by rw [hm₁, delete_head hprev, hhead]
  rw [achieves_bind]
  exact achieves_threadAddEvent hhead₁ fun _ _ => achieves_pure.2 rfl

/-- The only unused record is linked to itself. -/
theorem Rep.isShared (h : Rep m q none) (hq : q.addresses .unused = [a]) :
    Achieves (threadCancel a) (fun _ m' => IsShared a m') m := by
  -- The tail of the list is the record that is added after it.
  have hlist := h.isList .unused
  rw [hq] at hlist
  have hadd : Intrusive.add a m.links (m.list .unused) = _ := add_of_tail hlist.tail
  have hlinks : (Intrusive.add a m.links (m.list .unused)).1 a = ⟨some a, some a⟩ := by
    rw [hadd]
    exact Function.update_self ..
  rw [h.achieves_threadCancel_unused (show _ = [] ++ a :: [] from hq), and_iff_right ⟨rfl, rfl⟩]
  refine isShared_of_prev (m := m.onList _ _) ?_ ?_
  · exact (congrArg (fun p => p.2.head) hadd).trans hlist.head
  · exact fun hprev => nomatch (congrArg Links.prev hlinks).symm.trans hprev

/-! ## Runs -/

variable [DecidableEq A] {calls : List (Call F A)}

/-- Cancelling an unused thread does not leave well-formed lists: if there are more of them, an
    assertion fails, and if there is only one, its record is given to two threads. -/
theorem threadCancel_unused (h : Run calls m) (ha : a ∈ m.addresses .unused) :
    ¬Achieves (threadCancel a) (fun _ m' => ∃ l, InLists m' l) m ∧
      if m.addresses .unused = [a] then Achieves (threadCancel a) (fun _ m' => IsShared a m') m
      else (threadCancel a).result m = none := by
  have hrep := h.scheduled.1.rep
  rw [hrep.addresses_eq] at ha ⊢
  refine ⟨hrep.not_inLists ha, ?_⟩
  split_ifs with hone
  · exact hrep.isShared hone
  · by_contra hne
    obtain ⟨⟨_, m'⟩, hr⟩ := Option.ne_none_iff_exists'.1 hne
    have hsome : Achieves (threadCancel a) (fun _ _ => True) m := ⟨_, m', hr, trivial⟩
    obtain ⟨l₁, l₂, hq⟩ := List.append_of_mem ha
    obtain ⟨⟨rfl, rfl⟩, -⟩ := (hrep.achieves_threadCancel_unused hq).1 hsome
    exact hone hq

/-- An event is added and cancelled. -/
theorem run_cancelled : ∃ (m₁ m : Master Unit ℕ),
    Run [⟨threadMasterCreate, .addEvent () 7 1, .added (some 0)⟩, ⟨m₁, .cancel 0, .cancelled⟩] m ∧
      m.addresses .unused = [0] := by
  have hadd : Run [⟨threadMasterCreate, .addEvent () 7 1, .added (some 0)⟩] _ :=
    .call .create trivial rfl
  exact ⟨_, _, hadd.call (show Op.Valid _ (.cancel 0) from ⟨_, rfl, nofun⟩) rfl, rfl⟩

/-- It is cancelled again. -/
theorem threadCancel_unused_event : ∃ m : Master Unit ℕ, m.addresses .unused = [0] ∧
    Achieves (threadCancel 0) (fun _ m' => IsShared 0 m') m := by
  obtain ⟨_, m, hrun, hm⟩ := run_cancelled
  have h := (threadCancel_unused (a := 0) hrun (hm ▸ List.mem_singleton_self 0)).2
  rw [if_pos hm] at h
  exact ⟨m, hm, h⟩

/-- Cancelling twice is not harmless. -/
theorem not_threadCancel : ¬∀ (calls : List (Call Unit ℕ)) (m : Master Unit ℕ) (a : ℕ),
    Run calls m → (∃ c ∈ calls, ∃ func arg val, c.op = .addEvent func arg val ∧
      c.ret = .added (some a)) → a ∈ m.addresses .unused →
        Achieves (threadCancel a) (fun _ m' => ∃ l, InLists m' l) m := by
  intro h
  obtain ⟨_, m, hrun, hm⟩ := run_cancelled
  have hmem : 0 ∈ m.addresses .unused := hm ▸ List.mem_singleton_self 0
  have hadd : Achieves (threadCancel 0) (fun _ m' => ∃ l, InLists m' l) m :=
    h _ m 0 hrun ⟨_, List.mem_cons_self, _, _, _, rfl, rfl⟩ hmem
  have hrep := hrun.scheduled.1.rep
  exact hrep.not_inLists (hrep.addresses_eq ▸ hmem) hadd

end Mksh
