import Mksh.Lib.Ensures

/-!
# Refinement

`Simulates wrap p q Q s t`: from the states `s` and `t`, the process `p` does what the
process `q` does, with the data it has for them. They log the same events, up to
`wrap`, and one returns just when the other does, with what `Q` relates. Processes
are compared step by step (`Simulates.bind`). Where only one of the two has a step, it
must log nothing, and return (`Simulates.left`, `Simulates.right`).
-/

universe u v w

namespace Process

variable {σ τ : Type u} {ε ε' : Type v} {α α' β β' : Type w} {wrap : ε → ε'}
  {p : Process σ ε α} {q : Process τ ε' β} {p' : α → Process σ ε α'} {q' : β → Process τ ε' β'}
  {Q : α → σ → β → τ → Prop} {R : α' → σ → β' → τ → Prop} {s : σ} {t : τ}

/-- The processes log the same events, and return what is related, or not at all. -/
def Simulates (wrap : ε → ε') (p : Process σ ε α) (q : Process τ ε' β)
    (Q : α → σ → β → τ → Prop) (s : σ) (t : τ) : Prop :=
  q.log t = (p.log s).map wrap ∧
    Option.Rel (fun r r' => Q r.1 r.2 r'.1 r'.2) (p.result s) (q.result t)

/-- How the results correspond may be weakened. -/
theorem Simulates.mono {Q' : α → σ → β → τ → Prop} (h : Simulates wrap p q Q s t)
    (hQ : ∀ a s' b t', Q a s' b t' → Q' a s' b t') : Simulates wrap p q Q' s t := by
  obtain ⟨hlog, hresult⟩ := h
  refine ⟨hlog, ?_⟩
  generalize p.result s = r, q.result t = r' at hresult ⊢
  cases hresult with
  | some h => exact .some (hQ _ _ _ _ h)
  | none => exact .none

theorem simulates_pure {a : α} {b : β} (h : Q a s b t) :
    Simulates wrap (pure a) (pure b) Q s t := ⟨rfl, .some h⟩

/-- Both log an event. -/
theorem simulates_emit {e : ε} {Q : PUnit.{w + 1} → σ → PUnit.{w + 1} → τ → Prop}
    (h : Q ⟨⟩ s ⟨⟩ t) : Simulates wrap (emit e) (emit (wrap e)) Q s t := ⟨rfl, .some h⟩

/-- What comes after parts that correspond has to correspond. -/
theorem Simulates.bind (h : Simulates wrap p q Q s t)
    (h' : ∀ a s' b t', Q a s' b t' → Simulates wrap (p' a) (q' b) R s' t') :
    Simulates wrap (p >>= p') (q >>= q') R s t := by
  obtain ⟨hlog, hresult⟩ := h
  rcases hp : p.result s with _ | ⟨a, s'⟩ <;> rcases hq : q.result t with _ | ⟨b, t'⟩ <;>
    rw [hp, hq] at hresult
  · refine ⟨?_, ?_⟩
    · rw [log_bind_of_none hp, log_bind_of_none hq, hlog]
    · rw [result_bind_of_none hp, result_bind_of_none hq]
      exact .none
  · cases hresult
  · cases hresult
  · cases hresult with
    | some hQ =>
      obtain ⟨hlog', hresult'⟩ := h' a s' b t' hQ
      refine ⟨?_, ?_⟩
      · rw [log_bind_of_some hp, log_bind_of_some hq, hlog, hlog', List.map_append]
      · rw [result_bind_of_some hp, result_bind_of_some hq]
        exact hresult'

/-- A step of the first process. -/
theorem Simulates.left {S : α → σ → Prop} {R : α' → σ → β → τ → Prop} (hlog : p.log s = [])
    (hp : Achieves p S s) (h : ∀ a s', S a s' → Simulates wrap (p' a) q R s' t) :
    Simulates wrap (p >>= p') q R s t := by
  obtain ⟨a, s', hr, hS⟩ := hp
  obtain ⟨hlog', hresult⟩ := h a s' hS
  refine ⟨?_, ?_⟩
  · rw [log_bind_of_some hr, hlog, hlog']
    rfl
  · rw [result_bind_of_some hr]
    exact hresult

/-- A step of the second process. -/
theorem Simulates.right {R : α → σ → β' → τ → Prop} {b : β} {t' : τ} (hq : q t = ([], some (b, t')))
    (h : Simulates wrap p (q' b) R s t') : Simulates wrap p (q >>= q') R s t := by
  obtain ⟨hlog, hresult⟩ := h
  have hr : q.result t = some (b, t') := congrArg Prod.snd hq
  refine ⟨?_, ?_⟩
  · rw [log_bind_of_some hr, log, hq, hlog]
    rfl
  · rw [result_bind_of_some hr]
    exact hresult

/-- The first process goes on where the second one has returned. -/
theorem Simulates.bind_left {R : α' → σ → β → τ → Prop} (h : Simulates wrap p q Q s t)
    (h' : ∀ a s' b t', Q a s' b t' →
      (p' a).log s' = [] ∧ Achieves (p' a) (fun a' s'' => R a' s'' b t') s') :
    Simulates wrap (p >>= p') q R s t := by
  obtain ⟨hlog, hresult⟩ := h
  -- Both sides end here, or both go on.
  rcases hp : p.result s with _ | ⟨a, s'⟩
  · rw [hp] at hresult
    refine ⟨?_, ?_⟩
    · rw [log_bind_of_none hp, hlog]
    · rw [result_bind_of_none hp]
      cases hq : q.result t with
      | none => exact .none
      | some _ =>
        rw [hq] at hresult
        cases hresult
  · rcases hq : q.result t with _ | ⟨b, t'⟩
    · rw [hp, hq] at hresult
      cases hresult
    · rw [hp, hq] at hresult
      cases hresult with
      | some hQ =>
        obtain ⟨hnil, a', s'', hr, hR⟩ := h' a s' b t' hQ
        refine ⟨?_, ?_⟩
        · rw [log_bind_of_some hp, hnil, List.append_nil, hlog]
        · rw [result_bind_of_some hp, hr, hq]
          exact .some hR

/-- The second process returns something else. -/
theorem Simulates.map_right {f : β → β'} {R : α → σ → β' → τ → Prop}
    (h : Simulates wrap p q (fun a s' b t' => R a s' (f b) t') s t) :
    Simulates wrap p (q >>= fun b => pure (f b)) R s t := by
  obtain ⟨hlog, hresult⟩ := h
  refine ⟨(log_bind_pure f).trans hlog, ?_⟩
  rcases hq : q.result t with _ | ⟨b, t'⟩
  · rw [hq] at hresult
    rw [result_bind_of_none hq]
    cases hp : p.result s with
    | none => exact .none
    | some r =>
      rw [hp] at hresult
      cases hresult
  · rw [hq] at hresult
    rw [result_bind_of_some hq]
    cases hp : p.result s with
    | none =>
      rw [hp] at hresult
      cases hresult
    | some r =>
      rw [hp] at hresult
      cases hresult with
      | some h => exact .some h

/-- Processes that return, and log nothing. -/
theorem simulates_of_achieves {S : α → σ → Prop} {T : β → τ → Prop} (hlog : p.log s = [])
    (hp : Achieves p S s) (hlog' : q.log t = []) (hq : Achieves q T t)
    (h : ∀ a s' b t', S a s' → T b t' → Q a s' b t') : Simulates wrap p q Q s t := by
  obtain ⟨a, s', hr, hS⟩ := hp
  obtain ⟨b, t', hr', hT⟩ := hq
  refine ⟨?_, ?_⟩
  · rw [hlog, hlog']
    rfl
  · rw [hr, hr']
    exact .some (h a s' b t' hS hT)

section Zoom

variable {υ : Type u} {ε₀ : Type v} {view : σ → υ} {update : υ → σ → σ} {wrap₁ : ε₀ → ε}
  {view' : τ → υ} {update' : υ → τ → τ} {wrap₂ : ε₀ → ε'} {p₁ : σ → Process υ ε₀ α}
  {p₂ : τ → Process υ ε₀ α}

/-- The same process, on a part that the states have in common. -/
theorem simulates_zoom (hwrap : ∀ e, wrap₂ e = wrap (wrap₁ e)) (hview : view' t = view s)
    (hp : p₂ t = p₁ s) :
    Simulates wrap (zoom view update wrap₁ p₁) (zoom view' update' wrap₂ p₂)
      (fun a s' b t' => a = b ∧ ∃ x, s' = update x s ∧ t' = update' x t) s t := by
  rw [Simulates, log, log, result, result, zoom, zoom]
  dsimp only
  rw [hp, hview]
  refine ⟨?_, ?_⟩
  · rw [List.map_map]
    exact List.map_congr_left fun e _ => hwrap e
  · rcases (p₁ s).result (view s) with _ | ⟨a, x⟩
    · exact .none
    · exact .some ⟨rfl, x, rfl, rfl⟩

/-- The second process runs on a part of its state. -/
theorem Simulates.zoom_right {q : Process υ ε' β} {Q : α → σ → β → υ → Prop}
    (h : Simulates wrap p q Q s (view' t)) :
    Simulates wrap p (zoom view' update' id fun _ => q)
      (fun a s' b t' => ∃ x, Q a s' b x ∧ t' = update' x t) s t := by
  obtain ⟨hlog, hresult⟩ := h
  refine ⟨(List.map_id _).trans hlog, ?_⟩
  change Option.Rel _ (p.result s) ((q.result (view' t)).map fun r => (r.1, update' r.2 t))
  generalize p.result s = r, q.result (view' t) = r' at hresult
  cases hresult with
  | some hQ => exact .some ⟨_, hQ, rfl⟩
  | none => exact .none

/-- A process on a part of a state does what it does on the part alone. -/
theorem simulates_zoom_left {q : Process υ ε α} :
    Simulates id (zoom view update id fun _ => q) q
      (fun a s' b x => a = b ∧ s' = update x s) s (view s) := by
  refine ⟨?_, ?_⟩
  · change q.log (view s) = ((q.log (view s)).map id).map id
    rw [List.map_id, List.map_id]
  · change Option.Rel _ ((q.result (view s)).map fun r => (r.1, update r.2 s)) _
    rcases q.result (view s) with _ | ⟨a, x⟩
    · exact .none
    · exact .some ⟨rfl, rfl⟩

end Zoom

/-- Loops whose iterations correspond, with what `I` relates. -/
theorem Simulates.forEach {ι : Type*} {l : List ι} {body : ι → Process σ ε PUnit.{w + 1}}
    {body' : ι → Process τ ε' PUnit.{w + 1}} {I : σ → τ → Prop}
    (h : ∀ i ∈ l, ∀ s t, I s t → Simulates wrap (body i) (body' i) (fun _ s' _ t' => I s' t') s t)
    (hI : I s t) :
    Simulates wrap (forEach body l) (forEach body' l) (fun _ s' _ t' => I s' t') s t := by
  induction l generalizing s t with
  | nil => exact simulates_pure hI
  | cons i l ih =>
    refine (h i List.mem_cons_self s t hI).bind fun _ s' _ t' hI' => ?_
    exact ih (fun j hj => h j (List.mem_cons_of_mem i hj)) hI'

/-- Processes that correspond return together. -/
theorem Simulates.result_eq_none_iff (h : Simulates wrap p q Q s t) :
    p.result s = none ↔ q.result t = none := by
  have hrel := h.2
  rcases hp : p.result s with _ | r <;> rcases hq : q.result t with _ | r' <;> rw [hp, hq] at hrel
  · exact iff_of_true rfl rfl
  · cases hrel
  · cases hrel
  · exact iff_of_false nofun nofun

/-- When a process returns, what it refines does. -/
theorem Simulates.exists_result (h : Simulates wrap p q Q s t) {a : α} {s' : σ}
    (hr : p.result s = some (a, s')) : ∃ b t', q.result t = some (b, t') ∧ Q a s' b t' := by
  have hrel := h.2
  rw [hr] at hrel
  rcases hq : q.result t with _ | ⟨b, t'⟩ <;> rw [hq] at hrel
  · cases hrel
  · cases hrel with
    | some hQ => exact ⟨b, t', rfl, hQ⟩

end Process
