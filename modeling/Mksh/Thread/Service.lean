import Mksh.Thread.Run

/-!
# The service of events

An event does not wait forever, whatever else is added, expires or becomes ready, and
whatever the clock and `select` answer: as long as one of the events of a state waits,
what is fetched from then on are the events before it, in order (`run_serves`). So it is
fetched, or has been cancelled, after as many threads as there are events before it.
-/

namespace Mksh

open CString Process Queues

variable {F A : Type} {m m' : Master F A} {q q' : Queues F A} {acts acts' : List (Act F A)}
  {e : ℕ × Task F A} {l old new : List (ℕ × Task F A)} {r : Round} {rounds : List Round}

/-! ## Steps -/

/-- A list of which threads are taken out. -/
theorem event_update_sublist {t : ThreadType} (hl : l.Sublist (q t)) :
    (Function.update q t l .event).Sublist (q .event) := by
  rcases eq_or_ne t .event with rfl | ht
  · rwa [Function.update_self]
  · rw [Function.update_of_ne ht.symm]

/-- In a step, events are only added at the end of their list. -/
theorem Queues.Step.exists_kept (h : Step q acts q') :
    ∃ kept added, q' .event = kept ++ added ∧ kept.Sublist (q .event) ∧
      added.map Prod.snd = Mksh.events (acts.filterMap Act.accepted) := by
  have hkept (hsub : (q' .event).Sublist (q .event))
      (hno : Mksh.events (acts.filterMap Act.accepted) = []) :
      ∃ kept added, q' .event = kept ++ added ∧ kept.Sublist (q .event) ∧
        added.map Prod.snd = Mksh.events (acts.filterMap Act.accepted) :=
    ⟨q' .event, [], (List.append_nil _).symm, hsub, hno.symm⟩
  cases h with
  | recycle l => exact hkept (by simp) rfl
  | @push t a task htimer hready hunused =>
    rcases eq_or_ne t .event with rfl | ht
    · exact ⟨q .event, [(a, task)], Function.update_self .., .refl _, rfl⟩
    · refine hkept ?_ ?_
      · rw [Function.update_of_ne ht.symm]
      · simp [Mksh.events, Act.accepted, ht]
  | timer a func arg hq _ _ => exact hkept (by simp) rfl
  | cancel hunused hq => exact hkept (event_update_sublist (by simp [hq])) rfl
  | fetch hunused hevent hq => exact hkept (event_update_sublist (by simp [hq])) rfl
  | ready kind hq =>
    refine hkept ?_ rfl
    rw [Function.update_of_ne (by decide)]
    exact event_update_sublist (by simp [hq])

theorem Queues.Steps.exists_kept (h : Steps q acts q') :
    ∃ kept added, q' .event = kept ++ added ∧ kept.Sublist (q .event) ∧
      (added.map Prod.snd).Sublist (Mksh.events (acts.filterMap Act.accepted)) := by
  induction h with
  | refl => exact ⟨_, [], (List.append_nil _).symm, .refl _, by simp⟩
  | @cons q q₁ q₂ acts acts' hstep _ ih =>
    obtain ⟨kept, added, hq₁, hkept, hadded⟩ := hstep.exists_kept
    obtain ⟨kept', added', hq₂, hkept', hadded'⟩ := ih
    rw [hq₁] at hkept'
    obtain ⟨x, y, rfl, hx, hy⟩ := List.sublist_append_iff.1 hkept'
    refine ⟨x, y ++ added', by rw [hq₂, List.append_assoc], hx.trans hkept, ?_⟩
    rw [List.map_append, List.filterMap_append, events_append, ← hadded]
    exact (hy.map Prod.snd).append hadded'

/-! ## Calls -/

/-- The first event is fetched at once. -/
theorem Scheduled.threadFetch_of_event (h : Scheduled m q) (hq : q .event = e :: l) :
    Achieves (Mksh.threadFetch (r :: rounds)) (fun ret m' => ret = some (some ⟨e.2, .event⟩) ∧
      m'.queue .event = l) m := by
  rw [Mksh.threadFetch, achieves_bind, Mksh.threadFetchRound]
  refine h.achieves_runOr_head type_ne_event (by decide) (fun hnil => ?_) ?_
  · rw [hq] at hnil
    cases hnil
  · intro e' l₁ l' m' hq' h'
    obtain ⟨rfl, rfl⟩ := List.cons.inj (hq.symm.trans hq')
    refine achieves_pure.2 ⟨rfl, ?_⟩
    rw [h'.rep.queue_eq, Function.update_of_ne (by decide), Function.update_self]

/-- The threads fetched are the first of the events, in order, and the others are kept. -/
def Serves (before : List (ℕ × Task F A)) (threads : List (Thread F A))
    (kept : List (ℕ × Task F A)) : Prop :=
  ∃ served, threads = served.map (fun e => ⟨e.2, .event⟩) ∧ (served ++ kept).Sublist before

variable [DecidableEq A] {calls calls' : List (Call F A)} {c : Call F A}

/-- Only `threadFetch` fetches. -/
theorem filterMap_fetched_eq_nil {op : Op F A} {ret : Ret F A}
    (hop : ∀ rounds, op ≠ .fetch rounds) :
    (Call.acts ⟨m, op, ret⟩).filterMap Act.fetched = [] := by
  cases op with
  | fetch rounds => exact absurd rfl (hop rounds)
  | cancel a =>
    rw [Call.acts, List.filterMap_eq_nil_iff]
    intro act hact
    obtain ⟨thread, -, rfl⟩ := by simpa using hact
    rfl
  | cancelEvent arg =>
    rw [Call.acts, List.filterMap_eq_nil_iff]
    intro act hact
    obtain ⟨e, -, rfl⟩ := List.mem_map.1 hact
    rfl
  | _ => rcases ret with (_ | _) | _ | _ <;> rfl

/-- What a call of `threadFetch` returns. -/
theorem exists_fetched {rounds : List Round} {ret : Ret F A}
    (hr : (Op.perform (.fetch rounds)).result m = some (ret, m')) :
    ∃ thread, ret = .fetched thread ∧
      (Mksh.threadFetch rounds).result m = some (thread, m') := by
  have hperform : Ensures (Op.perform (.fetch rounds)) (fun ret m' =>
      ∃ thread, ret = .fetched thread ∧
        (Mksh.threadFetch rounds).result m = some (thread, m')) m := by
    rw [Op.perform, ensures_bind]
    intro thread m' hr
    exact ensures_pure.2 ⟨thread, rfl, hr⟩
  exact hperform _ _ hr

/-- In a call, the events that wait are served, or nothing is fetched. -/
theorem Scheduled.serves (h : Scheduled m q) {op : Op F A} {ret : Ret F A} (hop : op.Valid m)
    (hr : op.perform.result m = some (ret, m')) :
    ∃ kept added, m'.queue .event = kept ++ added ∧
      (added.map Prod.snd).Sublist
        (events ((Call.acts ⟨m, op, ret⟩).filterMap Act.accepted)) ∧
      (q .event = [] ∧ kept = [] ∨
        Serves (q .event) ((Call.acts ⟨m, op, ret⟩).filterMap Act.fetched) kept) := by
  obtain ⟨q', h', hsteps⟩ := (h.perform hop).ensures _ _ hr
  obtain ⟨kept, added, hq', hkept, hadded⟩ := hsteps.exists_kept
  have hqueue : m'.queue .event = kept ++ added := by rw [h'.rep.queue_eq, hq']
  by_cases hno : (Call.acts ⟨m, op, ret⟩).filterMap Act.fetched = []
  · exact ⟨kept, added, hqueue, hadded, .inr ⟨[], by rw [hno, List.map_nil], hkept⟩⟩
  obtain ⟨rounds, rfl⟩ : ∃ rounds, op = .fetch rounds := by
    by_contra hfetch
    exact hno (filterMap_fetched_eq_nil fun rounds heq => hfetch ⟨rounds, heq⟩)
  rcases hq : q .event with _ | ⟨e, l⟩
  · rw [hq] at hkept
    exact ⟨kept, added, hqueue, hadded, .inl ⟨rfl, List.sublist_nil.1 hkept⟩⟩
  obtain ⟨thread, rfl, hfetch⟩ := exists_fetched hr
  cases rounds with
  | nil =>
    cases hfetch
    exact absurd rfl hno
  | cons r rounds =>
    -- The first event is fetched at once.
    obtain ⟨rfl, hm'⟩ := (h.threadFetch_of_event hq).ensures _ _ hfetch
    exact ⟨l, [], by rw [hm', List.append_nil], by simp, .inr ⟨[e], rfl, .refl _⟩⟩

/-! ## Runs -/

/-- The last call of a run. -/
theorem Run.of_append (h : Run (calls ++ [c]) m') : Run calls c.before ∧ c.op.Valid c.before ∧
    c.op.perform.result c.before = some (c.ret, m') := by
  generalize hcs : calls ++ [c] = cs at h
  cases h with
  | create => exact absurd hcs (by simp)
  | call h hop hr =>
    obtain ⟨rfl, hc⟩ := List.append_inj' hcs rfl
    obtain rfl := List.singleton_inj.1 hc
    exact ⟨h, hop, hr⟩

theorem Run.eq_create (h : Run calls m) (hnil : calls = []) : m = threadMasterCreate := by
  cases h with
  | create => rfl
  | call => exact absurd hnil (by simp)

/-- The state after the calls. -/
theorem Run.unique (h : Run calls m) (h' : Run calls m') : m = m' := by
  rcases List.eq_nil_or_concat calls with rfl | ⟨cs, c, rfl⟩
  · rw [h.eq_create rfl, h'.eq_create rfl]
  · rw [List.concat_eq_append] at h h'
    have hr := h.of_append.2.2.symm.trans h'.of_append.2.2
    exact (Prod.mk.inj (Option.some.inj hr)).2

/-- The events that wait in a state are served in order, before anything else: as long as
    one of them is left, nothing but them is fetched, and the ones before it first. -/
theorem run_serves (h : Run calls m) (h' : Run (calls ++ calls') m') :
    ∃ old new, m'.queue .event = old ++ new ∧
      (new.map Prod.snd).Sublist
        (events ((calls'.flatMap Call.acts).filterMap Act.accepted)) ∧
      old.Sublist (m.queue .event) ∧
      (old ≠ [] → Serves (m.queue .event)
        ((calls'.flatMap Call.acts).filterMap Act.fetched) old) := by
  induction calls' using List.reverseRecOn generalizing m' with
  | nil =>
    rw [List.append_nil] at h'
    obtain rfl := h.unique h'
    exact ⟨m.queue .event, [], (List.append_nil _).symm, by simp, .refl _,
      fun _ => ⟨[], rfl, .refl _⟩⟩
  | append_singleton calls' c ih =>
    rw [← List.append_assoc] at h'
    obtain ⟨hrun, hop, hr⟩ := h'.of_append
    obtain ⟨old, new, hq, hnew, hold, hserves⟩ := ih hrun
    obtain ⟨kept, added, hm', hadded, hcall⟩ := hrun.scheduled.1.serves hop hr
    simp only [List.flatMap_append, List.flatMap_singleton, List.filterMap_append, events_append]
    rcases hcall with ⟨-, rfl⟩ | ⟨served, hfetched, hsub⟩
    · -- No events wait, so that none are left.
      refine ⟨[], added, hm', ?_, List.nil_sublist _, fun hne => absurd rfl hne⟩
      exact hadded.trans (List.sublist_append_right _ _)
    · rw [hq] at hsub
      obtain ⟨x, y, hxy, hx, hy⟩ := List.sublist_append_iff.1 hsub
      rcases List.append_eq_append_iff.1 hxy with ⟨old', rfl, rfl⟩ | ⟨z, rfl, rfl⟩
      · -- What is fetched are old events.
        refine ⟨old', y ++ added, by rw [hm', List.append_assoc], ?_,
          ((List.sublist_append_right _ _).trans hx).trans hold, fun hne => ?_⟩
        · rw [List.map_append]
          exact ((hy.map Prod.snd).trans hnew).append hadded
        · have hne' : old ≠ [] := by
            rintro rfl
            exact hne (List.append_eq_nil_iff.1 (List.sublist_nil.1 hx)).2
          obtain ⟨served', hfetched', hsub'⟩ := hserves hne'
          refine ⟨served' ++ served, ?_, ?_⟩
          · rw [hfetched', List.map_append]
            exact congrArg _ hfetched
          · rw [List.append_assoc]
            exact (hx.append_left served').trans hsub'
      · -- An event added since is fetched, so that no old ones are left.
        refine ⟨[], kept ++ added, hm', ?_, List.nil_sublist _, fun hne => absurd rfl hne⟩
        rw [List.map_append]
        have hkept : kept.Sublist new := (List.sublist_append_right z kept).trans hy
        exact ((hkept.map Prod.snd).trans hnew).append hadded

/-- Of two events, the first one is fetched. -/
theorem run_serves_addEvent : ∃ m m' : Master Unit ℕ,
    m.queue .event = [(0, ⟨(), 7, .val 1⟩), (1, ⟨(), 8, .val 1⟩)] ∧
      ∃ old new, m'.queue .event = old ++ new ∧ (new.map Prod.snd).Sublist [] ∧
        old.Sublist (m.queue .event) ∧
        (old ≠ [] → Serves (m.queue .event) [⟨⟨(), 7, .val 1⟩, .event⟩] old) := by
  have hadd : Run (F := Unit) [⟨threadMasterCreate, .addEvent () 7 1, .added (some 0)⟩] _ :=
    .call .create trivial rfl
  have hadd' := hadd.call (show Op.Valid _ (.addEvent () 8 1) from trivial) rfl
  have hfetch := hadd'.call
    (show Op.Valid _ (.fetch [⟨⟨0, 0⟩, ⟨0, 0⟩, fun _ _ _ => .timeout⟩]) from trivial) rfl
  exact ⟨_, _, rfl, run_serves hadd' hfetch⟩

end Mksh
