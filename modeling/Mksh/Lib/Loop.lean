import Mathlib.Data.Nat.Notation
import Mathlib.Tactic.SplitIfs

/-!
# Loops

A loop `while (cond) body` over the states of a type. It may go on for ever, so what it
does is a relation: from a state, it exits in another one (`Loop.Exits`), or in none. It
can be run with a bound on the tests of its condition (`Loop.run`, `exits_iff_run`).

* `Exits.preserves`: what every turn preserves holds when the loop exits;
* `not_exits`: the loop goes on for ever if every turn preserves what makes it go on;
* `exits_iff_of_map`: loops whose turns correspond to each other exit in states that do.
-/

namespace Loop

variable {α β : Type*} {cond : α → Prop} {body : α → α} {a b c : α} {I : α → Prop}

/-- From a state, the loop exits in another one. -/
inductive Exits (cond : α → Prop) (body : α → α) : α → α → Prop
  | done {a : α} : ¬cond a → Exits cond body a a
  | turn {a b : α} : cond a → Exits cond body (body a) b → Exits cond body a b

/-- The state in which the loop exits, if it does when its condition has been tested `n`
    times. -/
def run (cond : α → Prop) [DecidablePred cond] (body : α → α) : ℕ → α → Option α
  | 0, _ => none
  | n + 1, a => if cond a then run cond body n (body a) else some a

/-- While the condition holds, the loop exits as it does after its body. -/
theorem exits_iff_of_cond (h : cond a) : Exits cond body a b ↔ Exits cond body (body a) b := by
  refine ⟨fun hb => ?_, .turn h⟩
  cases hb with
  | done hnot => exact absurd h hnot
  | turn _ hb => exact hb

/-- If the condition does not hold, the loop exits at once. -/
theorem exits_iff_of_not (h : ¬cond a) : Exits cond body a b ↔ b = a := by
  constructor
  · intro hb
    cases hb with
    | done _ => rfl
    | turn hcond _ => exact absurd hcond h
  · rintro rfl
    exact .done h

/-- A loop exits if it runs to its end with some fuel. -/
theorem exits_iff_run [DecidablePred cond] :
    Exits cond body a b ↔ ∃ n, run cond body n a = some b := by
  constructor
  · intro h
    induction h with
    | done hnot => exact ⟨1, if_neg hnot⟩
    | turn hcond _ ih =>
      obtain ⟨n, hn⟩ := ih
      exact ⟨n + 1, (if_pos hcond).trans hn⟩
  · rintro ⟨n, hn⟩
    induction n generalizing a with
    | zero => cases hn
    | succ n ih =>
      rw [run] at hn
      split_ifs at hn with hcond
      · exact .turn hcond (ih hn)
      · obtain rfl := Option.some.inj hn
        exact .done hcond

/-- Where a loop has exited, its condition does not hold. -/
theorem Exits.not_cond (h : Exits cond body a b) : ¬cond b := by
  induction h with
  | done hnot => exact hnot
  | turn _ _ ih => exact ih

/-- A loop exits in one state only. -/
theorem Exits.unique (h : Exits cond body a b) (h' : Exits cond body a c) : b = c := by
  induction h with
  | done hnot => exact ((exits_iff_of_not hnot).1 h').symm
  | turn hcond _ ih => exact ih ((exits_iff_of_cond hcond).1 h')

/-- What the body preserves holds when the loop has exited. -/
theorem Exits.preserves (h : Exits cond body a b) (hI : ∀ x, I x → cond x → I (body x))
    (ha : I a) : I b := by
  induction h with
  | done _ => exact ha
  | turn hcond _ ih => exact ih (hI _ ha hcond)

/-- A loop whose body preserves its condition does not exit. -/
theorem not_exits (hI : ∀ x, I x → cond x ∧ I (body x)) (ha : I a) : ¬Exits cond body a b :=
  fun h => h.not_cond (hI b (h.preserves (fun x hx _ => (hI x hx).2) ha)).1

section Map

variable {cond' : β → Prop} {body' : β → β} {f : α → β}

/-- A loop that keeps track of more than another one. -/
theorem exits_iff_of_map (hcond : ∀ x, cond' (f x) ↔ cond x) (hbody : ∀ x, f (body x) = body' (f x))
    {y : β} : Exits cond' body' (f a) y ↔ ∃ b, Exits cond body a b ∧ f b = y := by
  constructor
  · intro h
    generalize hx : f a = x at h
    induction h generalizing a with
    | done hnot =>
      subst hx
      exact ⟨a, .done fun h => hnot ((hcond a).2 h), rfl⟩
    | turn hpos _ ih =>
      subst hx
      obtain ⟨b, hb, hy⟩ := ih (hbody a)
      exact ⟨b, .turn ((hcond a).1 hpos) hb, hy⟩
  · rintro ⟨b, h, rfl⟩
    induction h with
    | done hnot => exact .done fun h => hnot ((hcond _).1 h)
    | turn hpos _ ih => exact .turn ((hcond _).2 hpos) (hbody _ ▸ ih)

end Map

end Loop
