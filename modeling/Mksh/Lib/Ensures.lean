import Mathlib.Order.Defs.Unbundled
import Mksh.Lib.Process

/-!
# What processes ensure

`Ensures p Q s`: if the process `p` returns from the state `s`, then what it
returns, with the state after, satisfies `Q`. This is partial correctness: a
process that ends ensures anything. What a process ensures is determined step by
step (`ensures_bind`), and so are the events it logs (`Logs`): those of all its
steps satisfy a property (`logs_bind`).

`Achieves p Q s` is total correctness: the process does return, and ensures `Q`.

`Moves R p`: wherever it starts, the process `p` moves along the preorder `R`,
e.g., one that says which part of the state is left as it is. Processes that do
may be put together in any way (`Moves.bind`, `Moves.forEach`).

`zoom`: a process on a part of the state. It leaves the rest as it is, which is
all there is to say about it there (`ensures_zoom`).
-/

universe u v w

namespace Process

variable {σ τ : Type u} {ε : Type v} {α β : Type w} {p : Process σ ε α} {q : α → Process σ ε β}
  {s : σ} {Q R : α → σ → Prop}

/-! ## What is returned -/

/-- What is returned, with the state after, satisfies `Q`. -/
def Ensures (p : Process σ ε α) (Q : α → σ → Prop) (s : σ) : Prop :=
  ∀ a s', p.result s = some (a, s') → Q a s'

/-- What is ensured may be weakened. -/
theorem Ensures.mono (h : Ensures p Q s) (hQ : ∀ a s', Q a s' → R a s') : Ensures p R s :=
  fun a s' hr => hQ a s' (h a s' hr)

/-- Two properties are ensured together if each of them is. -/
theorem Ensures.and (h : Ensures p Q s) (h' : Ensures p R s) :
    Ensures p (fun a s' => Q a s' ∧ R a s') s :=
  fun a s' hr => ⟨h a s' hr, h' a s' hr⟩

@[simp]
theorem ensures_true : Ensures p (fun _ _ => True) s ↔ True := iff_true_intro fun _ _ _ => trivial

@[simp]
theorem ensures_pure {a : α} : Ensures (pure a : Process σ ε α) Q s ↔ Q a s := by
  constructor
  · intro h
    exact h a s rfl
  · rintro h _ _ ⟨⟩
    exact h

/-- A process that does not return ensures anything. -/
@[simp]
theorem ensures_halt : Ensures (halt : Process σ ε α) Q s ↔ True :=
  iff_true_intro fun _ _ h => nomatch h

@[simp]
theorem ensures_emit {e : ε} {Q : PUnit.{w + 1} → σ → Prop} :
    Ensures (emit e) Q s ↔ Q ⟨⟩ s := by
  constructor
  · intro h
    exact h ⟨⟩ s rfl
  · rintro h _ _ ⟨⟩
    exact h

/-- Reading the state leaves it as it is. -/
@[simp]
theorem ensures_get {Q : σ → σ → Prop} :
    Ensures (get : Process σ ε σ) Q s ↔ Q s s := by
  constructor
  · intro h
    exact h s s rfl
  · rintro h _ _ ⟨⟩
    exact h

/-- After an assignment, the property holds of the new state. -/
@[simp]
theorem ensures_modify {f : σ → σ} {Q : PUnit.{w + 1} → σ → Prop} :
    Ensures (modify f : Process σ ε PUnit.{w + 1}) Q s ↔ Q ⟨⟩ (f s) := by
  constructor
  · intro h
    exact h ⟨⟩ (f s) rfl
  · rintro h _ _ ⟨⟩
    exact h

@[simp]
theorem ensures_step {f : σ → α × σ} :
    Ensures (step f : Process σ ε α) Q s ↔ Q (f s).1 (f s).2 := by
  constructor
  · intro h
    exact h (f s).1 (f s).2 rfl
  · intro h a s' hr
    have hf : f s = (a, s') := Option.some.inj hr
    rw [hf] at h
    exact h

/-- The second part runs on what the first one returns. -/
@[simp]
theorem ensures_bind {Q : β → σ → Prop} :
    Ensures (p >>= q) Q s ↔ Ensures p (fun a s' => Ensures (q a) Q s') s := by
  rcases hr : p.result s with _ | ⟨a, s'⟩
  · refine iff_of_true (fun _ _ h => ?_) (fun _ _ h => ?_)
    · rw [result_bind_of_none hr] at h
      cases h
    · rw [hr] at h
      cases h
  · simp only [Ensures, result_bind_of_some hr, hr]
    refine ⟨?_, fun h => h a s' rfl⟩
    rintro h _ _ ⟨⟩
    exact h

/-- What the second part ensures, wherever it runs. -/
theorem ensures_bind_of_forall {Q : β → σ → Prop} (h : ∀ a s', Ensures (q a) Q s') :
    Ensures (p >>= q) Q s := ensures_bind.2 fun a s' _ => h a s'

/-- Of the two branches, only the one that is taken matters. -/
theorem ensures_ite {c : Prop} [Decidable c] {p' : Process σ ε α} :
    Ensures (if c then p else p') Q s ↔ if c then Ensures p Q s else Ensures p' Q s := by
  split_ifs
  · exact Iff.rfl
  · exact Iff.rfl

/-- What an iteration preserves, wherever it starts, a loop preserves. -/
theorem ensures_forEach {ι : Type*} {body : ι → Process σ ε PUnit.{w + 1}} {l : List ι}
    {I : σ → Prop} (h : ∀ i ∈ l, ∀ s, I s → Ensures (body i) (fun _ => I) s) (hs : I s) :
    Ensures (forEach body l) (fun _ => I) s := by
  induction l generalizing s with
  | nil => exact ensures_pure.2 hs
  | cons i l ih =>
    refine ensures_bind.2 ((h i List.mem_cons_self s hs).mono fun _ s' hs' => ?_)
    exact ih (fun j hj => h j (List.mem_cons_of_mem i hj)) hs'

/-- What the iterations preserve holds before each of those entered. -/
theorem of_mem_entries {ι : Type*} {body : ι → Process σ ε PUnit.{w + 1}} {l : List ι}
    {I : σ → Prop} (h : ∀ i ∈ l, ∀ s, I s → Ensures (body i) (fun _ => I) s) (hs : I s) {p : ι × σ}
    (hp : p ∈ entries body l s) : I p.2 := by
  induction l generalizing s with
  | nil => exact absurd hp List.not_mem_nil
  | cons i l ih =>
    rw [entries] at hp
    rcases List.mem_cons.1 hp with rfl | hp
    · exact hs
    · rcases hr : (body i).result s with _ | ⟨a, s'⟩
      · rw [hr] at hp
        exact absurd hp List.not_mem_nil
      · rw [hr] at hp
        exact ih (fun j hj => h j (List.mem_cons_of_mem i hj))
          (h i List.mem_cons_self s hs a s' hr) hp

/-! ## Returning -/

/-- The process returns, and what it returns, with the state after, satisfies `Q`. -/
def Achieves (p : Process σ ε α) (Q : α → σ → Prop) (s : σ) : Prop :=
  ∃ a s', p.result s = some (a, s') ∧ Q a s'

/-- What is achieved is ensured. -/
theorem Achieves.ensures (h : Achieves p Q s) : Ensures p Q s := by
  obtain ⟨a, s', hr, hq⟩ := h
  intro b t hb
  obtain ⟨rfl, rfl⟩ := Prod.mk.inj (Option.some.inj (hr.symm.trans hb))
  exact hq

@[simp]
theorem achieves_pure {a : α} : Achieves (pure a : Process σ ε α) Q s ↔ Q a s := by
  constructor
  · rintro ⟨_, _, ⟨⟩, h⟩
    exact h
  · intro h
    exact ⟨a, s, rfl, h⟩

/-- A process that does not return achieves nothing. -/
@[simp]
theorem achieves_halt : Achieves (halt : Process σ ε α) Q s ↔ False :=
  iff_false_intro fun ⟨_, _, h, _⟩ => nomatch h

@[simp]
theorem achieves_emit {e : ε} {Q : PUnit.{w + 1} → σ → Prop} :
    Achieves (emit e) Q s ↔ Q ⟨⟩ s := by
  constructor
  · rintro ⟨_, _, ⟨⟩, h⟩
    exact h
  · intro h
    exact ⟨⟨⟩, s, rfl, h⟩

@[simp]
theorem achieves_get {Q : σ → σ → Prop} : Achieves (get : Process σ ε σ) Q s ↔ Q s s := by
  constructor
  · rintro ⟨_, _, ⟨⟩, h⟩
    exact h
  · intro h
    exact ⟨s, s, rfl, h⟩

/-- An assignment returns, and the property holds of the new state. -/
@[simp]
theorem achieves_modify {f : σ → σ} {Q : PUnit.{w + 1} → σ → Prop} :
    Achieves (modify f : Process σ ε PUnit.{w + 1}) Q s ↔ Q ⟨⟩ (f s) := by
  constructor
  · rintro ⟨_, _, ⟨⟩, h⟩
    exact h
  · intro h
    exact ⟨⟨⟩, f s, rfl, h⟩

/-- The first part has to return, in a state from which the second one achieves the property. -/
@[simp]
theorem achieves_bind {Q : β → σ → Prop} :
    Achieves (p >>= q) Q s ↔ Achieves p (fun a s' => Achieves (q a) Q s') s := by
  rcases hr : p.result s with _ | ⟨a, s'⟩
  · refine iff_of_false ?_ ?_
    · rintro ⟨_, _, h, _⟩
      rw [result_bind_of_none hr] at h
      cases h
    · rintro ⟨_, _, h, _⟩
      rw [hr] at h
      cases h
  · constructor
    · rintro ⟨b, t, h, hq⟩
      rw [result_bind_of_some hr] at h
      exact ⟨a, s', hr, b, t, h, hq⟩
    · rintro ⟨a', t, h, b, t', h', hq⟩
      exact ⟨b, t', (result_bind_of_some h).trans h', hq⟩

/-- Of the two branches, only the one that is taken matters. -/
theorem achieves_ite {c : Prop} [Decidable c] {p' : Process σ ε α} :
    Achieves (if c then p else p') Q s ↔ if c then Achieves p Q s else Achieves p' Q s := by
  split_ifs
  · exact Iff.rfl
  · exact Iff.rfl

@[simp]
theorem achieves_step {f : σ → α × σ} :
    Achieves (step f : Process σ ε α) Q s ↔ Q (f s).1 (f s).2 := by
  constructor
  · rintro ⟨a, s', hr, h⟩
    obtain ⟨rfl, rfl⟩ := Prod.mk.inj (Option.some.inj hr)
    exact h
  · intro h
    exact ⟨(f s).1, (f s).2, rfl, h⟩

/-- Total correctness is termination, given what is returned. -/
theorem achieves_iff_of_ensures {a : α} {s' : σ} (h : Ensures p (fun b t => b = a ∧ t = s') s) :
    Achieves p Q s ↔ Achieves p (fun _ _ => True) s ∧ Q a s' := by
  constructor
  · rintro ⟨b, t, hr, hq⟩
    obtain ⟨rfl, rfl⟩ := h b t hr
    exact ⟨⟨b, t, hr, trivial⟩, hq⟩
  · rintro ⟨⟨b, t, hr, -⟩, hq⟩
    obtain ⟨rfl, rfl⟩ := h b t hr
    exact ⟨b, t, hr, hq⟩

/-- A process that returns returns something. -/
theorem result_eq_none_iff : p.result s = none ↔ ¬Achieves p (fun _ _ => True) s := by
  rcases hr : p.result s with _ | ⟨a, s'⟩
  · refine iff_of_true rfl ?_
    rintro ⟨a, s', hr', -⟩
    rw [hr] at hr'
    cases hr'
  · exact iff_of_false nofun fun h => h ⟨a, s', hr, trivial⟩

/-- What is achieved may be weakened. -/
theorem Achieves.mono (h : Achieves p Q s) (hQ : ∀ a s', Q a s' → R a s') : Achieves p R s := by
  obtain ⟨a, s', hr, hq⟩ := h
  exact ⟨a, s', hr, hQ a s' hq⟩

/-- What a process ensures, given when it returns, and what. -/
theorem ensures_of_achieves_iff {c : Prop} {a : α} {s' : σ}
    (h : ∀ Q, Achieves p Q s ↔ c ∧ Q a s') : Ensures p Q s ↔ (c → Q a s') := by
  constructor
  · intro he hc
    obtain ⟨b, t, hr, hb, ht⟩ := (h fun b t => b = a ∧ t = s').2 ⟨hc, rfl, rfl⟩
    exact hb ▸ ht ▸ he b t hr
  · intro hq b t hr
    obtain ⟨hc, hb, ht⟩ := (h fun b' t' => b' = b ∧ t' = t).1 ⟨b, t, hr, rfl, rfl⟩
    exact hb ▸ ht ▸ hq hc

/-! ## Moves -/

/-- Wherever it starts, the process moves along `R`. -/
def Moves (R : σ → σ → Prop) (p : Process σ ε α) : Prop := ∀ s, Ensures p (fun _ s' => R s s') s

section Moves

variable {R : σ → σ → Prop}

/-- The relation may be weakened. -/
theorem Moves.weaken {R' : σ → σ → Prop} (h : Moves R p) (hR : ∀ s s', R s s' → R' s s') :
    Moves R' p := fun s => (h s).mono fun _ s' => hR s s'

theorem moves_halt : Moves R (halt : Process σ ε α) := fun _ => ensures_halt.2 trivial

/-- An assignment moves along the relation if its function does. -/
theorem moves_modify {f : σ → σ} (h : ∀ s, R s (f s)) :
    Moves R (modify f : Process σ ε PUnit.{w + 1}) := fun s => ensures_modify.2 (h s)

/-- Both branches have to move along the relation. -/
theorem Moves.ite {c : Prop} [Decidable c] {p' : Process σ ε α} (h : Moves R p)
    (h' : Moves R p') : Moves R (if c then p else p') := by
  split_ifs
  · exact h
  · exact h'

variable [IsPreorder σ R]

theorem moves_pure (a : α) : Moves R (pure a : Process σ ε α) := fun s => ensures_pure.2 (refl s)

/-- Logging does not move. -/
theorem moves_emit (e : ε) : Moves R (emit e : Process σ ε PUnit.{w + 1}) := fun s =>
  ensures_emit.2 (refl s)

theorem moves_get : Moves R (get : Process σ ε σ) := fun s => ensures_get.2 (refl s)

/-- Parts that move along a transitive relation do so one after the other. -/
theorem Moves.bind (hp : Moves R p) (hq : ∀ a, Moves R (q a)) : Moves R (p >>= q) := fun s =>
  ensures_bind.2 ((hp s).mono fun a s' h => (hq a s').mono fun _ _ h' => trans_of R h h')

/-- A loop moves along the relation if each of its turns does. -/
theorem Moves.forEach {ι : Type*} {body : ι → Process σ ε PUnit.{w + 1}} {l : List ι}
    (h : ∀ i, Moves R (body i)) : Moves R (forEach body l) := fun s =>
  ensures_forEach (I := R s) (fun i _ s' hs' => (h i s').mono fun _ _ h' => trans_of R hs' h')
    (refl s)

end Moves

/-! ## What is logged -/

/-- The events logged satisfy `P`. -/
def Logs (P : ε → Prop) (p : Process σ ε α) (s : σ) : Prop := ∀ e ∈ p.log s, P e

variable {P : ε → Prop}

@[simp]
theorem logs_pure {a : α} : Logs P (pure a : Process σ ε α) s ↔ True :=
  iff_true_intro fun _ h => absurd h List.not_mem_nil

@[simp]
theorem logs_halt : Logs P (halt : Process σ ε α) s ↔ True :=
  iff_true_intro fun _ h => absurd h List.not_mem_nil

@[simp]
theorem logs_get : Logs P (get : Process σ ε σ) s ↔ True :=
  iff_true_intro fun _ h => absurd h List.not_mem_nil

@[simp]
theorem logs_modify {f : σ → σ} : Logs P (modify f : Process σ ε PUnit.{w + 1}) s ↔ True :=
  iff_true_intro fun _ h => absurd h List.not_mem_nil

@[simp]
theorem logs_step {f : σ → α × σ} : Logs P (step f : Process σ ε α) s ↔ True :=
  iff_true_intro fun _ h => absurd h List.not_mem_nil

/-- Of what is logged, only the event matters. -/
@[simp]
theorem logs_emit {e : ε} : Logs P (emit e : Process σ ε PUnit.{w + 1}) s ↔ P e := by
  simp [Logs]

/-- The second part logs events in the states that the first one ensures. -/
@[simp]
theorem logs_bind : Logs P (p >>= q) s ↔
    Logs P p s ∧ Ensures p (fun a s' => Logs P (q a) s') s := by
  rcases hr : p.result s with _ | ⟨a, s'⟩
  · simp [Logs, Ensures, log_bind_of_none hr, hr]
  · rw [Logs, log_bind_of_some hr, List.forall_mem_append]
    refine and_congr_right fun _ => ⟨?_, fun h => h a s' hr⟩
    intro h a' s'' hr'
    rw [hr] at hr'
    cases hr'
    exact h

/-- What the second part ensures, given what it logs. -/
theorem ensures_bind_of_logs {Q : β → σ → Prop} (h : Logs P (p >>= q) s)
    (hp : Logs P p s → Ensures p (fun a s' => Logs P (q a) s' → Ensures (q a) Q s') s) :
    Ensures (p >>= q) Q s := by
  obtain ⟨h₁, h₂⟩ := logs_bind.1 h
  exact ensures_bind.2 fun a s' hr => hp h₁ a s' hr (h₂ a s' hr)

/-- What a process ensures and logs, step by step. -/
theorem ensures_and_logs_bind {Q : β → σ → Prop} :
    Ensures (p >>= q) Q s ∧ Logs P (p >>= q) s ↔
      Logs P p s ∧ Ensures p (fun a s' => Ensures (q a) Q s' ∧ Logs P (q a) s') s := by
  rw [ensures_bind, logs_bind]
  constructor
  · rintro ⟨hq, hp, hlogs⟩
    exact ⟨hp, hq.and hlogs⟩
  · rintro ⟨hp, h⟩
    exact ⟨h.mono fun _ _ h => h.1, hp, h.mono fun _ _ h => h.2⟩

/-- Of the two branches, only the one that is taken matters. -/
theorem logs_ite {c : Prop} [Decidable c] {p' : Process σ ε α} :
    Logs P (if c then p else p') s ↔ if c then Logs P p s else Logs P p' s := by
  split_ifs
  · exact Iff.rfl
  · exact Iff.rfl

@[simp]
theorem logs_true : Logs (fun _ => True) p s ↔ True := iff_true_intro fun _ _ => trivial

/-- Wherever it starts, the process only logs events that satisfy `P`. -/
def Always (P : ε → Prop) (p : Process σ ε α) : Prop := ∀ s, Logs P p s

theorem always_pure (a : α) : Always P (pure a : Process σ ε α) := fun _ => logs_pure.2 trivial

theorem always_halt : Always P (halt : Process σ ε α) := fun _ => logs_halt.2 trivial

theorem always_get : Always P (get : Process σ ε σ) := fun _ => logs_get.2 trivial

theorem always_modify (f : σ → σ) : Always P (modify f : Process σ ε PUnit.{w + 1}) := fun _ =>
  logs_modify.2 trivial

/-- An event that always has the property may be logged anywhere. -/
theorem always_emit {e : ε} (h : P e) : Always P (emit e : Process σ ε PUnit.{w + 1}) := fun _ =>
  logs_emit.2 h

/-- Both parts have to log events of that kind, in all states. -/
theorem Always.bind (hp : Always P p) (hq : ∀ a, Always P (q a)) : Always P (p >>= q) := fun s =>
  logs_bind.2 ⟨hp s, fun a s' _ => hq a s'⟩

/-- Both branches have to log events of that kind. -/
theorem Always.ite {c : Prop} [Decidable c] {p' : Process σ ε α} (h : Always P p)
    (h' : Always P p') : Always P (if c then p else p') := by
  split_ifs
  · exact h
  · exact h'

/-- A loop logs events of that kind if each of its turns does. -/
theorem Always.forEach {ι : Type*} {body : ι → Process σ ε PUnit.{w + 1}} {l : List ι}
    (h : ∀ i, Always P (body i)) : Always P (forEach body l) := by
  induction l with
  | nil => exact always_pure _
  | cons i l ih => exact (h i).bind fun _ => ih

/-! ## Parts of the state -/

variable {ε' : Type v}

/-- The process `p` on the part of the state that `view` shows and `update` writes
    back; it may depend on all of the state before it. Its events are wrapped. -/
def zoom (view : σ → τ) (update : τ → σ → σ) (wrap : ε → ε') (p : σ → Process τ ε α) :
    Process σ ε' α := fun s =>
  (((p s).log (view s)).map wrap, ((p s).result (view s)).map fun r => (r.1, update r.2 s))

variable {view : σ → τ} {update : τ → σ → σ} {wrap : ε → ε'} {p' : σ → Process τ ε α}

/-- On a part of the state, the property is one of the whole with the part put back. -/
@[simp]
theorem ensures_zoom : Ensures (zoom view update wrap p') Q s ↔
    Ensures (p' s) (fun a t => Q a (update t s)) (view s) := by
  constructor
  · intro h a t hr
    exact h a (update t s) (Option.map_eq_some_iff.2 ⟨(a, t), hr, rfl⟩)
  · intro h a s' hr
    obtain ⟨⟨b, t⟩, hb, heq⟩ := Option.map_eq_some_iff.1 hr
    cases heq
    exact h b t hb

/-- On a part of the state, the property is one of the whole with the part put back. -/
@[simp]
theorem achieves_zoom : Achieves (zoom view update wrap p') Q s ↔
    Achieves (p' s) (fun a t => Q a (update t s)) (view s) := by
  constructor
  · rintro ⟨a, s', hr, hq⟩
    obtain ⟨⟨b, t⟩, hb, heq⟩ := Option.map_eq_some_iff.1 hr
    cases heq
    exact ⟨b, t, hb, hq⟩
  · rintro ⟨a, t, hr, hq⟩
    exact ⟨a, update t s, Option.map_eq_some_iff.2 ⟨(a, t), hr, rfl⟩, hq⟩

/-- The events of a part are wrapped. -/
@[simp]
theorem logs_zoom {P : ε' → Prop} : Logs P (zoom view update wrap p') s ↔
    Logs (fun e => P (wrap e)) (p' s) (view s) :=
  List.forall_mem_map

end Process
