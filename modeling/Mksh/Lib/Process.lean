import Mathlib.Data.List.Count

/-!
# Processes

A process has a state, logs events, and may end at any point, by exiting or by
crashing (`Process`). The processes form a monad, in which the logs are
appended.

* `Quiet`, `AtMostOnce`: no event of a kind is logged, or at most one. Both are
  determined step by step (`quiet_bind`, `atMostOnce_bind`).
* `Accounts`: a list of parts that account for the events of a process, with
  the parts that log some, and those that log several. The lists of two
  processes are appended (`Accounts.bind`).
* `forEach`: a loop over a list. Its log is that of the iterations it enters
  (`entries`), one after the other (`log_forEach`). A loop over two lists goes on
  with the second one, unless the first has ended it (`forEach_append`).
-/

universe u v w

/-- From a state, the events logged, and what is returned, with the state in
    which it is, unless the process has ended. -/
def Process (σ : Type u) (ε : Type v) (α : Type w) := σ → List ε × Option (α × σ)

namespace Process

variable {σ : Type u} {ε : Type v} {α β : Type w}

/-- The events logged. -/
def log (p : Process σ ε α) (s : σ) : List ε := (p s).1

/-- What is returned, and the state after, unless the process has ended. -/
def result (p : Process σ ε α) (s : σ) : Option (α × σ) := (p s).2

/-- The process after a first part, given how that went. -/
def andThen (q : α → Process σ ε β) : List ε × Option (α × σ) → List ε × Option (β × σ)
  | (es, none) => (es, none)
  | (es, some (a, s)) => (es ++ (q a s).1, (q a s).2)

instance : Monad (Process σ ε) where
  pure a := fun s => ([], some (a, s))
  bind p q := fun s => andThen q (p s)

/-- Logging an event. -/
def emit (e : ε) : Process σ ε PUnit.{w + 1} := fun s => ([e], some (⟨⟩, s))

/-- Reading the state. -/
def get : Process σ ε σ := fun s => ([], some (s, s))

/-- Changing the state. -/
def modify (f : σ → σ) : Process σ ε PUnit.{w + 1} := fun s => ([], some (⟨⟩, f s))

/-- Changing the state, and returning something. -/
def step (f : σ → α × σ) : Process σ ε α := fun s => ([], some (f s))

/-- Ending the process. -/
def halt : Process σ ε α := fun _ => ([], none)

variable {p : Process σ ε α} {q : α → Process σ ε β} {s : σ}

@[simp]
theorem log_pure (a : α) (s : σ) : log (pure a : Process σ ε α) s = [] := rfl

@[simp]
theorem log_emit (e : ε) (s : σ) : log (emit e : Process σ ε PUnit.{w + 1}) s = [e] := rfl

/-- What comes after a first part that ended does not run. -/
theorem bind_of_none (h : p.result s = none) : (p >>= q) s = (p.log s, none) := by
  have hp : p s = (p.log s, none) := Prod.ext rfl h
  change andThen q (p s) = _
  rw [hp]
  rfl

/-- Two parts, of which the first one returns. -/
theorem bind_of_some {a : α} {s' : σ} (h : p.result s = some (a, s')) :
    (p >>= q) s = (p.log s ++ (q a).log s', (q a).result s') := by
  have hp : p s = (p.log s, some (a, s')) := Prod.ext rfl h
  change andThen q (p s) = _
  rw [hp]
  rfl

/-- If the first part does not return, the second one logs nothing. -/
theorem log_bind_of_none (h : p.result s = none) : (p >>= q).log s = p.log s :=
  congrArg Prod.fst (bind_of_none h)

/-- If the first part returns, the second one logs after it. -/
theorem log_bind_of_some {a : α} {s' : σ} (h : p.result s = some (a, s')) :
    (p >>= q).log s = p.log s ++ (q a).log s' :=
  congrArg Prod.fst (bind_of_some h)

/-- If the first part does not return, neither do both. -/
theorem result_bind_of_none (h : p.result s = none) : (p >>= q).result s = none :=
  congrArg Prod.snd (bind_of_none h)

/-- If the first part returns, the result is that of the second one. -/
theorem result_bind_of_some {a : α} {s' : σ} (h : p.result s = some (a, s')) :
    (p >>= q).result s = (q a).result s' := by
  rw [result, bind_of_some h]

theorem get_bind {γ : Type u} (q : σ → Process σ ε γ) (s : σ) : (get >>= q) s = q s s := rfl

/-- Returning something else logs nothing. -/
theorem log_bind_pure (f : α → β) : (p >>= fun a => pure (f a)).log s = p.log s := by
  rcases hr : p.result s with _ | ⟨a, s'⟩
  · exact log_bind_of_none hr
  · rw [log_bind_of_some hr, log_pure, List.append_nil]

/-! ## Events of a kind -/

variable {P : ε → Bool}

/-- No event of the kind `P` is logged. -/
def Quiet (P : ε → Bool) (p : Process σ ε α) (s : σ) : Prop := (p.log s).countP P = 0

/-- At most one event of the kind `P` is logged. -/
def AtMostOnce (P : ε → Bool) (p : Process σ ε α) (s : σ) : Prop := (p.log s).countP P ≤ 1

/-- None is at most one. -/
theorem Quiet.atMostOnce (h : Quiet P p s) : AtMostOnce P p s := by
  rw [Quiet] at h
  rw [AtMostOnce, h]
  exact Nat.zero_le 1

@[simp]
theorem quiet_pure (a : α) (s : σ) : Quiet P (pure a : Process σ ε α) s := rfl

@[simp]
theorem quiet_halt (s : σ) : Quiet P (halt : Process σ ε α) s := rfl

@[simp]
theorem quiet_modify (f : σ → σ) (s : σ) :
    Quiet P (modify f : Process σ ε PUnit.{w + 1}) s := rfl

@[simp]
theorem quiet_emit {e : ε} : Quiet P (emit e : Process σ ε PUnit.{w + 1}) s ↔ P e = false := by
  simp [Quiet]

/-- Two parts are quiet if the first one is, and the second one from where it returns. -/
theorem quiet_bind : Quiet P (p >>= q) s ↔
    Quiet P p s ∧ ∀ a s', p.result s = some (a, s') → Quiet P (q a) s' := by
  rcases hr : p.result s with _ | ⟨a, s'⟩
  · simp [Quiet, log_bind_of_none hr]
  · simp [Quiet, log_bind_of_some hr]

/-- Of two parts, one has at most one such event, and the other none. -/
theorem atMostOnce_bind : AtMostOnce P (p >>= q) s ↔
    (Quiet P p s ∧ ∀ a s', p.result s = some (a, s') → AtMostOnce P (q a) s') ∨
      (AtMostOnce P p s ∧ ∀ a s', p.result s = some (a, s') → Quiet P (q a) s') := by
  rcases hr : p.result s with _ | ⟨a, s'⟩
  · rw [AtMostOnce, log_bind_of_none hr]
    refine ⟨fun h => .inr ⟨h, fun _ _ h => (nomatch h)⟩, fun h => ?_⟩
    rcases h with h | h
    · exact h.1.atMostOnce
    · exact h.1
  · have hlen : (p.log s ++ (q a).log s').countP P =
        (p.log s).countP P + ((q a).log s').countP P := List.countP_append
    rw [AtMostOnce, log_bind_of_some hr, hlen]
    refine ⟨fun h => ?_, ?_⟩
    · -- One event in all: in the first part, or after it.
      rcases Nat.eq_zero_or_pos ((p.log s).countP P) with h0 | hpos
      · refine .inl ⟨h0, ?_⟩
        rintro _ _ ⟨⟩
        exact Nat.le_of_add_left_le h
      · refine .inr ⟨Nat.le_of_add_right_le h, ?_⟩
        rintro _ _ ⟨⟩
        rw [Quiet]
        omega
    · rintro (⟨h0, h⟩ | ⟨h, h0⟩)
      · have h1 := h a s' rfl
        rw [Quiet] at h0
        rw [AtMostOnce] at h1
        omega
      · have h1 := h0 a s' rfl
        rw [Quiet] at h1
        rw [AtMostOnce] at h
        omega

/-! ## Accounting for the events -/

/-- What comes after a part, in the state in which it returns. -/
def after {A : Type*} (p : Process σ ε α) (l : σ → List A) (s : σ) : List A :=
  match p.result s with
  | none => []
  | some (_, s') => l s'

/-- At most one of the parts `l` is active, and none is active twice. -/
def Single {A : Type*} (R T : A → Prop) (l : List A) : Prop :=
  l.Pairwise (fun a b => ¬(R a ∧ R b)) ∧ ∀ a ∈ l, ¬T a

/-- The parts `l` account for the events of a kind: those logged by `a` are some
    if `R a`, and several if `T a`. -/
structure Accounts {A : Type*} (P : ε → Bool) (R T : A → Prop) (l : List A)
    (p : Process σ ε α) (s : σ) : Prop where
  quiet : Quiet P p s ↔ ∀ a ∈ l, ¬R a
  atMostOnce : AtMostOnce P p s ↔ Single R T l

section Accounts

variable {A : Type*} {R T : A → Prop} {l : List A}

/-- Of two lists of parts, one is single, and the other inactive. -/
theorem single_append (hT : ∀ a, T a → R a) {l' : List A} : Single R T (l ++ l') ↔
    ((∀ a ∈ l, ¬R a) ∧ Single R T l') ∨ (Single R T l ∧ ∀ a ∈ l', ¬R a) := by
  simp only [Single, List.pairwise_append, List.forall_mem_append]
  constructor
  · rintro ⟨⟨hl, hl', hll'⟩, ht, ht'⟩
    by_cases h : ∃ a ∈ l, R a
    · obtain ⟨a, ha, hRa⟩ := h
      exact .inr ⟨⟨hl, ht⟩, fun b hb hRb => hll' a ha b hb ⟨hRa, hRb⟩⟩
    · exact .inl ⟨fun a ha hRa => h ⟨a, ha, hRa⟩, hl', ht'⟩
  · have hnil (k : List A) (hk : ∀ a ∈ k, ¬R a) :
        k.Pairwise (fun a b => ¬(R a ∧ R b)) ∧ ∀ a ∈ k, ¬T a :=
      ⟨List.pairwise_of_forall_mem_list fun a ha _ _ h => hk a ha h.1,
        fun a ha h => hk a ha (hT a h)⟩
    rintro (⟨hl, hl', ht'⟩ | ⟨⟨hl, ht⟩, hl'⟩)
    · exact ⟨⟨(hnil l hl).1, hl', fun a ha b _ h => hl a ha h.1⟩, (hnil l hl).2, ht'⟩
    · exact ⟨⟨hl, (hnil l' hl').1, fun a _ b hb h => hl' b hb h.2⟩, ht, (hnil l' hl').2⟩

/-- A process that is quiet needs no attempts to account for it. -/
theorem Accounts.of_quiet (h : Quiet P p s) : Accounts P R T [] p s where
  quiet := iff_of_true h fun _ ha => absurd ha List.not_mem_nil
  atMostOnce := iff_of_true h.atMostOnce ⟨.nil, fun _ ha => absurd ha List.not_mem_nil⟩

/-- Only what the process does from the state matters. -/
theorem Accounts.congr {p' : Process σ ε α} {s' : σ} (h : Accounts P R T l p s)
    (hp : p' s' = p s) : Accounts P R T l p' s' := by
  refine ⟨?_, ?_⟩
  · rw [← h.quiet, Quiet, Quiet, log, log, hp]
  · rw [← h.atMostOnce, AtMostOnce, AtMostOnce, log, log, hp]

/-- A process that is one part. -/
theorem Accounts.of_countP {a : A} (hR : R a ↔ 0 < (p.log s).countP P)
    (hT : T a ↔ 1 < (p.log s).countP P) : Accounts P R T [a] p s where
  quiet := by simp [hR, Quiet]
  atMostOnce := by simp [Single, hT, AtMostOnce]

/-- The parts of two processes, one after the other. -/
theorem Accounts.bind (hT : ∀ a, T a → R a) {l' : σ → List A} (hp : Accounts P R T l p s)
    (hq : ∀ a s', p.result s = some (a, s') → Accounts P R T (l' s') (q a) s') :
    Accounts P R T (l ++ after p l' s) (p >>= q) s := by
  rcases hr : p.result s with _ | ⟨a, s'⟩
  · rw [after, hr, List.append_nil]
    refine ⟨?_, ?_⟩
    · rw [← hp.quiet, Quiet, log_bind_of_none hr, Quiet]
    · rw [← hp.atMostOnce, AtMostOnce, log_bind_of_none hr, AtMostOnce]
  · rw [after, hr]
    have hq' := hq a s' hr
    refine ⟨?_, ?_⟩
    · rw [quiet_bind, List.forall_mem_append, ← hp.quiet, ← hq'.quiet]
      simp [hr]
    · rw [atMostOnce_bind, single_append hT, ← hp.quiet, ← hp.atMostOnce, ← hq'.quiet,
        ← hq'.atMostOnce]
      simp [hr]

end Accounts

/-! ## Loops -/

variable {ι : Type*}

/-- The iterations of a loop over a list, one after the other. -/
def forEach (body : ι → Process σ ε PUnit.{w + 1}) : List ι → Process σ ε PUnit.{w + 1}
  | [] => pure ⟨⟩
  | i :: l => body i >>= fun _ => forEach body l

/-- The iterations entered, each with the state before it. -/
def entries (body : ι → Process σ ε PUnit.{w + 1}) : List ι → σ → List (ι × σ)
  | [], _ => []
  | i :: l, s => (i, s) :: match (body i).result s with
    | none => []
    | some (_, s') => entries body l s'

/-- The log of a loop is that of its iterations. -/
theorem log_forEach (body : ι → Process σ ε PUnit.{w + 1}) (l : List ι) (s : σ) :
    (forEach body l).log s = (entries body l s).flatMap fun p => (body p.1).log p.2 := by
  induction l generalizing s with
  | nil => rfl
  | cons i l ih =>
    rw [forEach, entries, List.flatMap_cons]
    cases hr : (body i).result s with
    | none => rw [log, bind_of_none hr, List.flatMap_nil, List.append_nil]
    | some p =>
      obtain ⟨_, s'⟩ := p
      rw [log, bind_of_some hr]
      exact congrArg _ (ih s')

theorem entries_singleton (body : ι → Process σ ε PUnit.{w + 1}) (i : ι) (s : σ) :
    entries body [i] s = [(i, s)] := by
  rw [entries]
  cases (body i).result s with
  | none => rfl
  | some p => rfl

/-- A loop that does not end the process enters all iterations. -/
theorem map_fst_entries {body : ι → Process σ ε PUnit.{w + 1}} {l : List ι} {s' : σ}
    (h : (forEach body l).result s = some (⟨⟩, s')) : (entries body l s).map Prod.fst = l := by
  induction l generalizing s with
  | nil => rfl
  | cons i l ih =>
    rw [entries]
    cases hr : (body i).result s with
    | none =>
      rw [forEach, result_bind_of_none hr] at h
      cases h
    | some p =>
      obtain ⟨_, s₁⟩ := p
      rw [forEach, result_bind_of_some hr] at h
      exact congrArg (i :: ·) (ih h)

/-- A loop over a list in two parts. -/
theorem forEach_append (body : ι → Process σ ε PUnit.{w + 1}) (l l' : List ι) (s : σ) :
    (forEach body (l ++ l')).result s =
        ((forEach body l).result s).bind (fun p => (forEach body l').result p.2) ∧
      entries body (l ++ l') s =
        entries body l s ++ after (forEach body l) (entries body l') s := by
  induction l generalizing s with
  | nil => exact ⟨rfl, rfl⟩
  | cons i l ih =>
    rw [List.cons_append, forEach, forEach, entries, entries, after]
    cases hr : (body i).result s with
    | none =>
      rw [result_bind_of_none hr, result_bind_of_none hr]
      exact ⟨rfl, rfl⟩
    | some p =>
      obtain ⟨_, s₁⟩ := p
      obtain ⟨hresult, hentries⟩ := ih s₁
      rw [result_bind_of_some hr, result_bind_of_some hr]
      exact ⟨hresult, congrArg ((i, s) :: ·) hentries⟩

/-- A loop that goes on after its first part. -/
theorem forEach_append_of_some {body : ι → Process σ ε PUnit.{w + 1}} {l : List ι} {s' : σ}
    (h : (forEach body l).result s = some (⟨⟩, s')) (l' : List ι) :
    (forEach body (l ++ l')).result s = (forEach body l').result s' ∧
      entries body (l ++ l') s = entries body l s ++ entries body l' s' := by
  obtain ⟨hresult, hentries⟩ := forEach_append body l l' s
  rw [h] at hresult
  rw [after, h] at hentries
  exact ⟨hresult, hentries⟩

/-- A loop that has ended in its first part. -/
theorem forEach_append_of_none {body : ι → Process σ ε PUnit.{w + 1}} {l : List ι}
    (h : (forEach body l).result s = none) (l' : List ι) :
    (forEach body (l ++ l')).result s = none ∧ entries body (l ++ l') s = entries body l s := by
  obtain ⟨hresult, hentries⟩ := forEach_append body l l' s
  rw [h] at hresult
  rw [after, h, List.append_nil] at hentries
  exact ⟨hresult, hentries⟩

end Process
