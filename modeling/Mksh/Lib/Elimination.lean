import Mathlib.Data.List.MinMax
import Mathlib.Data.List.Perm.Basic

/-!
# Elimination in rounds

Candidates, given as a list, are eliminated in rounds. What a round does may
depend on all the candidates still live: it *halts* the elimination, or *fails*
it, or goes on, and in the first and the last case it keeps some candidates
(`Round`, `Round.play`, `run`).

* `top`: the top grade among candidates graded in a linear order, the usual
  thing a round depends on.
* `played`: the rounds an elimination has played, each with the candidates
  live before it. What is left are the candidates kept in all of them
  (`live_eq_filter`), and a candidate that is not left was dropped in one, live
  until then (`exists_dropped`).
* `PermRel`: two lists of candidates are related when they are so pairwise, up
  to a permutation. Rounds that agree on related candidates play related
  eliminations (`run_rel`): with equality as the relation, an elimination does
  not depend on the order of the candidates.
-/

namespace Elimination

open List

/-! ## The top grade -/

section Top

variable {α β γ : Type*} [LinearOrder γ] [OrderBot γ] {g : α → γ} {l : List α}

/-- The top grade of the candidates `l`, or `⊥` if there are none. -/
def top (g : α → γ) (l : List α) : γ := (l.map g).foldr max ⊥

@[simp]
theorem top_nil : top g [] = ⊥ := rfl

@[simp]
theorem top_cons (a : α) : top g (a :: l) = max (g a) (top g l) := rfl

/-- No candidate is above the top. -/
theorem le_top {a : α} (ha : a ∈ l) : g a ≤ top g l :=
  le_max_of_le (mem_map_of_mem ha) le_rfl

/-- The top is the least bound. -/
theorem top_le {c : γ} (h : ∀ a ∈ l, g a ≤ c) : top g l ≤ c :=
  max_le_of_forall_le _ _ fun _ hx => by
    obtain ⟨a, ha, rfl⟩ := mem_map.1 hx
    exact h a ha

/-- The top is the bottom if all candidates have it. -/
theorem top_eq_bot_iff : top g l = ⊥ ↔ ∀ a ∈ l, g a = ⊥ :=
  ⟨fun h _ ha => le_bot_iff.1 (h ▸ le_top ha),
    fun h => le_bot_iff.1 (top_le fun a ha => (h a ha).le)⟩

/-- Some candidate has the top grade. -/
theorem exists_eq_top (h : top g l ≠ ⊥) : ∃ a ∈ l, g a = top g l := by
  induction l with
  | nil => exact absurd rfl h
  | cons a l ih =>
    rw [top_cons] at h ⊢
    rcases le_total (top g l) (g a) with hle | hle
    · exact ⟨a, mem_cons_self, (max_eq_left hle).symm⟩
    · rw [max_eq_right hle] at h ⊢
      obtain ⟨b, hb, hbt⟩ := ih h
      exact ⟨b, mem_cons_of_mem a hb, hbt⟩

/-- The order of the candidates does not matter to the top. -/
theorem top_perm {l' : List α} (h : l ~ l') : top g l = top g l' :=
  le_antisymm (top_le fun _ ha => le_top (h.mem_iff.1 ha))
    (top_le fun _ ha => le_top (h.mem_iff.2 ha))

/-- Candidates that correspond have the same top. -/
theorem top_forall₂ {g' : β → γ} {l' : List β} (h : Forall₂ (fun a b => g a = g' b) l l') :
    top g l = top g' l' := by
  induction h with
  | nil => rfl
  | cons hab _ ih => rw [top_cons, top_cons, hab, ih]

end Top

/-! ## Agreement -/

section Agree

variable {ν : Type*} {a : ν} {l l' : List ν}

/-- All of `l` are the same. -/
def Agree (l : List ν) : Prop := ∀ a ∈ l, ∀ b ∈ l, a = b

instance [DecidableEq ν] : DecidablePred (Agree (ν := ν)) := fun l =>
  inferInstanceAs (Decidable (∀ a ∈ l, ∀ b ∈ l, a = b))

/-- Only which candidates there are matters to their agreement. -/
theorem agree_congr (h : ∀ a, a ∈ l ↔ a ∈ l') : Agree l ↔ Agree l' := by
  simp only [Agree, h]

theorem agree_nil : Agree ([] : List ν) := fun _ ha => absurd ha not_mem_nil

theorem agree_singleton : Agree [a] := fun _ hb _ hc =>
  (mem_singleton.1 hb).trans (mem_singleton.1 hc).symm

/-- Two candidates agree if they are the same. -/
@[simp]
theorem agree_pair {b : ν} : Agree [a, b] ↔ a = b := by
  refine ⟨fun h => h a (by simp) b (by simp), fun h => ?_⟩
  rintro c hc d hd
  simp only [h, mem_cons, not_mem_nil, or_false, or_self] at hc hd
  rw [hc, hd]

/-- To check whether all agree, it is enough to remember the last one. -/
theorem agree_append (l l' : List ν) :
    Agree (l ++ l') ↔ Agree l ∧ Agree (l.getLast?.toList ++ l') := by
  rcases eq_nil_or_concat' l with rfl | ⟨l, a, rfl⟩
  · simp [agree_nil]
  · simp only [getLast?_append, getLast?_singleton, Option.some_or, Option.toList_some]
    constructor
    · intro h
      constructor
      · intro b hb c hc
        exact h b (mem_append_left l' hb) c (mem_append_left l' hc)
      · intro b hb c hc
        refine h b ?_ c ?_
        · rw [append_assoc]
          exact mem_append_right l hb
        · rw [append_assoc]
          exact mem_append_right l hc
    · rintro ⟨h, h'⟩
      -- Everything in either part is the last of the first part.
      have hlast : ∀ b ∈ l ++ [a] ++ l', b = a := fun b hb => by
        rcases mem_append.1 hb with hb | hb
        · exact h b hb a (mem_append_right l (mem_singleton.2 rfl))
        · exact h' b (mem_append_right _ hb) a (mem_append_left _ (mem_singleton.2 rfl))
      exact fun b hb c hc => (hlast b hb).trans (hlast c hc).symm

end Agree

/-! ## Rounds -/

variable {α β ε : Type*}

/-- A round: whether it halts or fails, and the candidates it keeps, given the
    candidates live before it. -/
structure Round (α ε : Type*) where
  /-- The elimination ends with this round. -/
  halts : List α → Bool
  /-- The failure of the round, if it does not halt. -/
  fail : List α → Option ε
  /-- The candidates kept, if it does not fail. -/
  keep : List α → α → Bool

/-- What a round, or an elimination, ends with. -/
inductive Verdict (α ε : Type*)
  | go (l : List α)
  | halt (l : List α)
  | fail (e : ε)

/-- The candidates left, if there was no failure. -/
def Verdict.live : Verdict α ε → Option (List α)
  | go l => some l
  | halt l => some l
  | fail _ => none

/-- A round: the candidates kept are left, and the elimination halts, fails or goes on. -/
def Round.play (r : Round α ε) (l : List α) : Verdict α ε :=
  if r.halts l then .halt (l.filter (r.keep l))
  else match r.fail l with
    | some e => .fail e
    | none => .go (l.filter (r.keep l))

/-- The rounds `rs` from the candidates `l`, until one halts or fails. -/
def run : List (Round α ε) → List α → Verdict α ε
  | [], l => .go l
  | r :: rs, l => match r.play l with
    | .go l' => run rs l'
    | v => v

/-- The rounds played, each with the candidates live before it. -/
def played : List (Round α ε) → List α → List (Round α ε × List α)
  | [], _ => []
  | r :: rs, l => (r, l) :: match r.play l with
    | .go l' => played rs l'
    | _ => []

variable {r : Round α ε} {rs : List (Round α ε)} {l l' : List α}

/-- When a round halts, and with what. -/
theorem Round.play_halt_iff : r.play l = .halt l' ↔ r.halts l ∧ l' = l.filter (r.keep l) := by
  rw [play]
  split_ifs with h
  · simp [h, eq_comm]
  · cases r.fail l <;> simp [h]

/-- When a round goes on, and with what. -/
theorem Round.play_go_iff :
    r.play l = .go l' ↔ ¬r.halts l ∧ r.fail l = none ∧ l' = l.filter (r.keep l) := by
  rw [play]
  split_ifs with h
  · simp [h]
  · cases r.fail l <;> simp [h, eq_comm]

/-- Rounds that follow are played if those before have gone on. -/
theorem run_append (rs rs' : List (Round α ε)) (l : List α) :
    run (rs ++ rs') l = match run rs l with
      | .go l' => run rs' l'
      | v => v := by
  induction rs generalizing l with
  | nil => rfl
  | cons r rs ih =>
    rw [cons_append, run, run]
    cases r.play l with
    | go l' => exact ih l'
    | halt l' => rfl
    | fail e => rfl

/-- After rounds that have gone on, the others are played with what is left. -/
theorem run_append_of_go (h : run rs l = .go l') (rs' : List (Round α ε)) :
    run (rs ++ rs') l = run rs' l' := by
  rw [run_append, h]

/-- The candidates left are those kept in every round played. -/
theorem live_eq_filter (h : (run rs l).live = some l') :
    l' = l.filter fun a => (played rs l).all fun p => p.1.keep p.2 a := by
  induction rs generalizing l with
  | nil =>
    cases h
    exact (filter_eq_self.2 fun _ _ => rfl).symm
  | cons r rs ih =>
    rw [run] at h
    rw [played]
    cases hr : r.play l with
    | go m =>
      rw [hr] at h
      rw [ih h, (Round.play_go_iff.1 hr).2.2, filter_filter]
      simp only [all_cons, Bool.and_comm]
    | halt m =>
      rw [hr] at h
      cases h
      rw [(Round.play_halt_iff.1 hr).2]
      simp only [all_cons, all_nil, Bool.and_true]
    | fail e => rw [hr] at h; cases h

/-- What is left has been there from the start. -/
theorem mem_of_mem_run (h : (run rs l).live = some l') {a : α} (ha : a ∈ l') : a ∈ l := by
  rw [live_eq_filter h] at ha
  exact (mem_filter.1 ha).1

/-- The round `i` played is the round `i`, from what the rounds before it left. -/
theorem played_getElem? {i : ℕ} {m : List α} (h : (played rs l)[i]? = some (r, m)) :
    rs[i]? = some r ∧ run (rs.take i) l = .go m := by
  induction i generalizing rs l with
  | zero =>
    cases rs with
    | nil => cases h
    | cons r' rs => cases h; exact ⟨rfl, rfl⟩
  | succ i ih =>
    cases rs with
    | nil => cases h
    | cons r' rs =>
      rw [played, getElem?_cons_succ] at h
      rw [getElem?_cons_succ, take_succ_cons, run]
      cases hr : r'.play l with
      | go l' => rw [hr] at h; exact ih h
      | halt l' => rw [hr] at h; cases h
      | fail e => rw [hr] at h; cases h

/-- A candidate left was live in every round played, and kept. -/
theorem kept_of_mem_live (h : (run rs l).live = some l') {a : α} (ha : a ∈ l') {i : ℕ}
    {m : List α} (hi : (played rs l)[i]? = some (r, m)) : a ∈ m ∧ r.keep m a := by
  induction i generalizing rs l with
  | zero =>
    cases rs with
    | nil => cases hi
    | cons r' rs =>
      cases hi
      rw [live_eq_filter h, mem_filter, played, all_cons, Bool.and_eq_true] at ha
      exact ⟨ha.1, ha.2.1⟩
  | succ i ih =>
    cases rs with
    | nil => cases hi
    | cons r' rs =>
      rw [played, getElem?_cons_succ] at hi
      rw [run] at h
      cases hr : r'.play l with
      | go l' => rw [hr] at h hi; exact ih h hi
      | halt l' => rw [hr] at hi; cases hi
      | fail e => rw [hr] at hi; cases hi

/-- A candidate that is not left was dropped in a round, live until then. -/
theorem exists_dropped {a : α} (ha : a ∈ l)
    (hd : ((played rs l).all fun p => p.1.keep p.2 a) = false) :
    ∃ (i : ℕ) (r : Round α ε) (m : List α),
      (played rs l)[i]? = some (r, m) ∧ a ∈ m ∧ r.keep m a = false := by
  induction rs generalizing l with
  | nil => cases hd
  | cons r rs ih =>
    by_cases hk : r.keep l a = true
    · rw [played, all_cons, hk, Bool.true_and] at hd
      cases hr : r.play l with
      | go l' =>
        rw [hr] at hd
        have ha' : a ∈ l' := by
          rw [(Round.play_go_iff.1 hr).2.2]
          exact mem_filter.2 ⟨ha, hk⟩
        obtain ⟨i, r', m, hi, hm⟩ := ih ha' hd
        exact ⟨i + 1, r', m, by rw [played, getElem?_cons_succ, hr]; exact hi, hm⟩
      | halt l' => rw [hr] at hd; cases hd
      | fail e => rw [hr] at hd; cases hd
    · exact ⟨0, r, l, rfl, ha, by simpa using hk⟩

/-- In an elimination without a failure, a round that did not halt did not fail. -/
theorem fail_eq_none_of_live (h : (run rs l).live = some l') {p : Round α ε × List α}
    (hp : p ∈ played rs l) (hh : ¬p.1.halts p.2) : p.1.fail p.2 = none := by
  induction rs generalizing l with
  | nil => exact absurd hp not_mem_nil
  | cons r rs ih =>
    rw [run] at h
    rw [played] at hp
    rcases hr : r.play l with m | m | e
    · rw [hr] at h hp
      rcases mem_cons.1 hp with rfl | hp
      · exact (Round.play_go_iff.1 hr).2.1
      · exact ih h hp
    · rw [hr] at hp
      rcases mem_cons.1 hp with rfl | hp
      · exact absurd (Round.play_halt_iff.1 hr).1 hh
      · exact absurd hp not_mem_nil
    · rw [hr] at h
      cases h

/-- A round that halts is the last one played, and decides the elimination. -/
theorem run_of_halts {i : ℕ} {m : List α} (hi : (played rs l)[i]? = some (r, m))
    (hh : r.halts m) : run rs l = .halt (m.filter (r.keep m)) ∧ (played rs l).length = i + 1 := by
  induction i generalizing rs l with
  | zero =>
    cases rs with
    | nil => cases hi
    | cons r' rs =>
      cases hi
      have hr : r.play m = .halt (m.filter (r.keep m)) := Round.play_halt_iff.2 ⟨hh, rfl⟩
      rw [run, played, hr]
      exact ⟨rfl, rfl⟩
  | succ i ih =>
    cases rs with
    | nil => cases hi
    | cons r' rs =>
      rw [played, getElem?_cons_succ] at hi
      rw [run, played, length_cons]
      -- The round before has to go on, as another one is played after it.
      rcases hr : r'.play l with l' | l' | e
      · rw [hr] at hi
        obtain ⟨hrun, hlen⟩ := ih hi
        exact ⟨hrun, congrArg (· + 1) hlen⟩
      · rw [hr] at hi
        cases hi
      · rw [hr] at hi
        cases hi

/-- An elimination that halts does so in a round. -/
theorem exists_halts (h : run rs l = .halt l') :
    ∃ (i : ℕ) (r : Round α ε) (m : List α), (played rs l)[i]? = some (r, m) ∧ r.halts m := by
  induction rs generalizing l with
  | nil => cases h
  | cons r rs ih =>
    rw [run] at h
    rcases hr : r.play l with m | m | e
    · rw [hr] at h
      obtain ⟨i, r', m', hi, hh⟩ := ih h
      exact ⟨i + 1, r', m', by rw [played, getElem?_cons_succ, hr]; exact hi, hh⟩
    · exact ⟨0, r, l, rfl, (Round.play_halt_iff.1 hr).1⟩
    · rw [hr] at h
      cases h

/-- An elimination halts in the first round that halts, if none fails before it, with what
    this round keeps. -/
theorem run_halt_iff : run rs l = .halt l' ↔ ∃ (i : ℕ) (r : Round α ε) (m : List α),
    rs[i]? = some r ∧ run (rs.take i) l = .go m ∧ r.halts m ∧ l' = m.filter (r.keep m) := by
  constructor
  · intro h
    obtain ⟨i, r, m, hp, hh⟩ := exists_halts h
    obtain ⟨hi, hgo⟩ := played_getElem? hp
    exact ⟨i, r, m, hi, hgo, hh, Verdict.halt.inj (h.symm.trans (run_of_halts hp hh).1)⟩
  · rintro ⟨i, r, m, hi, hgo, hh, rfl⟩
    obtain ⟨hlt, rfl⟩ := List.getElem?_eq_some_iff.1 hi
    have hrun : run rs l = run (rs.drop i) m := by
      rw [← run_append_of_go hgo, take_append_drop]
    rw [hrun, drop_eq_getElem_cons hlt, run, Round.play_halt_iff.2 ⟨hh, rfl⟩]

/-- An elimination halts in the first round that does. -/
theorem exists_run_halt_iff : (∃ l', run rs l = .halt l') ↔
    ∃ (i : ℕ) (r : Round α ε) (m : List α),
      rs[i]? = some r ∧ run (rs.take i) l = .go m ∧ r.halts m := by
  constructor
  · rintro ⟨l', h⟩
    obtain ⟨i, r, m, hi, hgo, hh, -⟩ := run_halt_iff.1 h
    exact ⟨i, r, m, hi, hgo, hh⟩
  · rintro ⟨i, r, m, hi, hgo, hh⟩
    exact ⟨m.filter (r.keep m), run_halt_iff.2 ⟨i, r, m, hi, hgo, hh, rfl⟩⟩

/-- An elimination that goes on to its end has played all its rounds. -/
theorem length_played_of_go (h : run rs l = .go l') : (played rs l).length = rs.length := by
  induction rs generalizing l with
  | nil => rfl
  | cons r rs ih =>
    rw [run] at h
    rw [played, length_cons, length_cons]
    rcases hr : r.play l with m | m | e
    · rw [hr] at h
      exact congrArg (· + 1) (ih h)
    · rw [hr] at h
      cases h
    · rw [hr] at h
      cases h

/-! ## Related eliminations -/

/-- The lists are related pairwise, up to a permutation. -/
def PermRel (R : α → β → Prop) : List α → List β → Prop := Relation.Comp (Forall₂ R) Perm

variable {R : α → β → Prop} {k : List β}

theorem PermRel.length_eq (h : PermRel R l k) : l.length = k.length := by
  obtain ⟨m, hm, hp⟩ := h
  rw [hm.length_eq, hp.length_eq]

theorem PermRel.singleton {a : α} (h : PermRel R [a] k) : ∃ b, k = [b] ∧ R a b := by
  obtain ⟨m, hm, hp⟩ := h
  obtain ⟨b, _, hab, hnil, rfl⟩ := forall₂_cons_left_iff.1 hm
  cases forall₂_nil_left_iff.1 hnil
  exact ⟨b, (perm_singleton.1 hp.symm), hab⟩

/-- Related lists are both empty, or singletons of related candidates, or longer. -/
theorem PermRel.trichotomy (h : PermRel R l k) :
    (l = [] ∧ k = []) ∨ (∃ a b, l = [a] ∧ k = [b] ∧ R a b) ∨
      (∃ a a' l', l = a :: a' :: l') ∧ ∃ b b' k', k = b :: b' :: k' := by
  have hlen := h.length_eq
  rcases l with _ | ⟨a, _ | ⟨a', l'⟩⟩
  · exact .inl ⟨rfl, length_eq_zero_iff.1 hlen.symm⟩
  · obtain ⟨b, rfl, hab⟩ := h.singleton
    exact .inr (.inl ⟨a, b, rfl, rfl, hab⟩)
  · refine .inr (.inr ⟨⟨a, a', l', rfl⟩, ?_⟩)
    rcases k with _ | ⟨b, _ | ⟨b', k'⟩⟩
    · cases hlen
    · cases hlen
    · exact ⟨b, b', k', rfl⟩

/-- Filtering keeps lists related, when related candidates are kept together. -/
theorem PermRel.filter {p : α → Bool} {q : β → Bool} (hpq : ∀ a b, R a b → p a = q b)
    (h : PermRel R l k) : PermRel R (l.filter p) (k.filter q) := by
  obtain ⟨m, hm, hp⟩ := h
  refine ⟨m.filter q, rel_filter (fun a b hab => ?_) hm, hp.filter q⟩
  exact iff_of_eq (congrArg (· = true) (hpq a b hab))

/-- Candidates with corresponding properties are among both. -/
theorem PermRel.exists_mem {p : α → Prop} {q : β → Prop} (hpq : ∀ a b, R a b → (p a ↔ q b))
    (h : PermRel R l k) : (∃ a ∈ l, p a) ↔ ∃ b ∈ k, q b := by
  obtain ⟨m, hm, hp⟩ := h
  simp only [← hp.mem_iff]
  clear hp
  induction hm with
  | nil => simp
  | cons hab _ ih => simp only [exists_mem_cons_iff, hpq _ _ hab, ih]

/-- Lists that correspond have the same top. -/
theorem PermRel.top_eq {γ : Type*} [LinearOrder γ] [OrderBot γ] {g : α → γ} {g' : β → γ}
    (hg : ∀ a b, R a b → g a = g' b) (h : PermRel R l k) : top g l = top g' k := by
  obtain ⟨m, hm, hp⟩ := h
  exact (top_forall₂ (hm.imp hg)).trans (top_perm hp)

/-- The rounds agree on related candidates. -/
structure Round.Rel (R : α → β → Prop) (r : Round α ε) (r' : Round β ε) : Prop where
  halts : ∀ {l k}, PermRel R l k → r.halts l = r'.halts k
  fail : ∀ {l k}, PermRel R l k → r.fail l = r'.fail k
  keep : ∀ {l k}, PermRel R l k → ∀ a b, R a b → r.keep l a = r'.keep k b

/-- The verdicts are the same, and leave related candidates. -/
inductive Verdict.Rel (R : α → β → Prop) : Verdict α ε → Verdict β ε → Prop
  | go {l : List α} {k : List β} : PermRel R l k → Rel R (.go l) (.go k)
  | halt {l : List α} {k : List β} : PermRel R l k → Rel R (.halt l) (.halt k)
  | fail {e : ε} : Rel R (.fail e) (.fail e)

/-- Rounds that correspond have verdicts that do. -/
theorem Round.Rel.play {r' : Round β ε} (hr : r.Rel R r') (h : PermRel R l k) :
    (r.play l).Rel R (r'.play k) := by
  rw [Round.play, Round.play, hr.halts h, hr.fail h]
  split_ifs with hh
  · exact .halt (h.filter (hr.keep h))
  · cases r'.fail k with
    | some e => exact .fail
    | none => exact .go (h.filter (hr.keep h))

/-- Eliminations with rounds that agree, from related candidates, are related. -/
theorem run_rel {rs' : List (Round β ε)} (hr : Forall₂ (Round.Rel R) rs rs') (h : PermRel R l k) :
    (run rs l).Rel R (run rs' k) := by
  induction hr generalizing l k with
  | nil => exact .go h
  | cons hr _ ih =>
    rw [run, run]
    have hv := hr.play h
    generalize Round.play _ l = v, Round.play _ k = v' at hv ⊢
    cases hv with
    | go hg => exact ih hg
    | halt hh => exact .halt hh
    | fail => exact .fail

/-! ## Fewer candidates -/

/-- Without some of the others, the candidate `a` fares as well in the round `r'` as
    with them in `r`: where `r` goes on with it, so does `r'`, and keeps no more
    candidates; and where `r` halts with it alone, so does `r'`. -/
structure Round.Spares (r : Round α ε) (a : α) (r' : Round α ε) : Prop where
  go {l k : List α} : k <+ l → a ∈ k → ¬r.halts l → r.fail l = none → r.keep l a →
    ¬r'.halts k ∧ r'.fail k = none ∧ r'.keep k a ∧ ∀ b ∈ k, r'.keep k b → r.keep l b
  halt {l k : List α} : k <+ l → a ∈ k → r.halts l → l.filter (r.keep l) = [a] →
    r'.halts k ∧ k.filter (r'.keep k) = [a]

/-- Of fewer candidates, fewer are kept, if those kept would be kept of all. -/
theorem filter_sublist_filter {p q : α → Bool} {k : List α} (hk : k <+ l)
    (hpq : ∀ b ∈ k, p b → q b) : k.filter p <+ l.filter q := by
  have hboth : k.filter p = (k.filter q).filter p := by
    rw [filter_filter]
    refine filter_congr fun b hb => ?_
    cases hp : p b
    · rfl
    · exact (hpq b hb hp).symm
  rw [hboth]
  exact filter_sublist.trans (hk.filter q)

/-- The rounds `rs'` spare `a`, as long as the rounds `rs` go on from the candidates `l`. -/
inductive SparesFrom (a : α) : List α → List (Round α ε) → List (Round α ε) → Prop
  | nil {l : List α} : SparesFrom a l [] []
  | cons {l : List α} {r r' : Round α ε} {rs rs' : List (Round α ε)} : r.Spares a r' →
      (∀ l', r.play l = .go l' → SparesFrom a l' rs rs') → SparesFrom a l (r :: rs) (r' :: rs')

/-- What is left of an elimination without some of the other candidates. -/
theorem run_spares {a : α} {rs' : List (Round α ε)} (hr : SparesFrom a l rs rs')
    {k : List α} (hk : k <+ l) (ha : a ∈ k) :
    (∀ m, run rs l = .go m → a ∈ m → ∃ m', run rs' k = .go m' ∧ m' <+ m ∧ a ∈ m') ∧
      (run rs l = .halt [a] → run rs' k = .halt [a]) := by
  induction hr generalizing k with
  | nil =>
    refine ⟨fun m hm _ => ?_, fun h => nomatch h⟩
    cases hm
    exact ⟨k, rfl, hk, ha⟩
  | @cons l r r' rs rs' hr _ ih =>
    rw [run, run]
    rcases hplay : r.play l with m | m | e
    · obtain ⟨hh, hf, rfl⟩ := Round.play_go_iff.1 hplay
      by_cases hkeep : r.keep l a = true
      · obtain ⟨hh', hf', hkeep', hsub⟩ := hr.go hk ha hh hf hkeep
        rw [Round.play_go_iff.2 ⟨hh', hf', rfl⟩]
        exact ih _ hplay (filter_sublist_filter hk hsub) (mem_filter.2 ⟨ha, hkeep'⟩)
      · -- It is not left in the end.
        have hnot : a ∉ l.filter (r.keep l) := fun h => hkeep (mem_filter.1 h).2
        refine ⟨fun m hm ham => absurd ?_ hnot, fun hm => absurd ?_ hnot⟩
        · exact mem_of_mem_run (congrArg Verdict.live hm) ham
        · exact mem_of_mem_run (congrArg Verdict.live hm) mem_cons_self
    · obtain ⟨hh, rfl⟩ := Round.play_halt_iff.1 hplay
      refine ⟨fun m hm => (nomatch hm), fun hm => ?_⟩
      obtain ⟨hh', hkeep'⟩ := hr.halt hk ha hh (Verdict.halt.inj hm)
      rw [Round.play_halt_iff.2 ⟨hh', hkeep'.symm⟩]
    · exact ⟨fun m hm => (nomatch hm), fun hm => (nomatch hm)⟩

end Elimination
