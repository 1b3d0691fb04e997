import Mathlib.Data.List.Basic
import Mathlib.Data.List.Infix

/-!
# Fields with a separator

A list in which a separator stands between fields, none of which contains it, i.e.,
`[sep].intercalate fields`. Every list is one, in just one way
(`exists_intercalate`, `intercalate_inj`), and its prefixes are those whose last field
is one of the next field (`intercalate_prefix_iff`).
-/

namespace Fields

variable {α : Type*} {sep : α} {f g s t : List α} {fs gs : List (List α)}

/-- The first field of a list, or all of it, is a prefix of another one. -/
theorem prefix_of_prefix_append (hg : sep ∉ g) (h : g <+: f ++ sep :: t) : g <+: f := by
  rcases List.prefix_or_prefix_of_prefix h (List.prefix_append f _) with hgf | ⟨r, rfl⟩
  · exact hgf
  · rw [List.prefix_append_right_inj] at h
    rcases r with _ | ⟨c, r⟩
    · rw [List.append_nil]
    · obtain rfl := (List.cons_prefix_cons.1 h).1
      exact absurd (List.mem_append_right _ List.mem_cons_self) hg

/-- A field followed by a separator is the first field of the whole list. -/
theorem prefix_append_cons (hg : sep ∉ g) (hf : sep ∉ f) :
    g ++ sep :: s <+: f ++ sep :: t ↔ g = f ∧ s <+: t := by
  refine ⟨fun h => ?_, ?_⟩
  · have hgf := prefix_of_prefix_append hg ((List.prefix_append g _).trans h)
    obtain ⟨r, rfl⟩ := hgf
    rw [List.append_assoc, List.prefix_append_right_inj] at h
    rcases r with _ | ⟨c, r⟩
    · exact ⟨(List.append_nil g).symm, (List.cons_prefix_cons.1 h).2⟩
    · obtain rfl := (List.cons_prefix_cons.1 h).1
      exact absurd (List.mem_append_right _ List.mem_cons_self) hf
  · rintro ⟨rfl, h⟩
    rw [List.prefix_append_right_inj]
    exact List.cons_prefix_cons.2 ⟨rfl, h⟩

theorem intercalate_cons (sep : α) (f g : List α) (gs : List (List α)) :
    [sep].intercalate (f :: g :: gs) = f ++ sep :: [sep].intercalate (g :: gs) := by
  rw [List.intercalate_cons_cons, List.append_assoc, List.singleton_append]

/-- Two parts of the fields are joined by a separator. -/
theorem intercalate_append (hfs : fs ≠ []) (hgs : gs ≠ []) :
    [sep].intercalate (fs ++ gs) = [sep].intercalate fs ++ sep :: [sep].intercalate gs := by
  induction fs with
  | nil => exact absurd rfl hfs
  | cons f fs ih =>
    rcases fs with _ | ⟨f', fs⟩
    · obtain ⟨g, gs, rfl⟩ := List.exists_cons_of_ne_nil hgs
      rw [List.singleton_append, intercalate_cons, List.intercalate_singleton]
    · rw [List.cons_append, List.cons_append, intercalate_cons, ← List.cons_append,
        ih (List.cons_ne_nil f' fs), intercalate_cons, List.append_assoc, List.cons_append]

/-- One more field. -/
theorem intercalate_concat (hne : fs ≠ []) (f : List α) :
    [sep].intercalate (fs ++ [f]) = [sep].intercalate fs ++ sep :: f := by
  rw [intercalate_append hne (List.cons_ne_nil f []), List.intercalate_singleton]

/-- More of the last field. -/
theorem intercalate_append_last (fs : List (List α)) (f t : List α) :
    [sep].intercalate (fs ++ [f ++ t]) = [sep].intercalate (fs ++ [f]) ++ t := by
  rcases eq_or_ne fs [] with rfl | hne
  · rw [List.nil_append, List.nil_append, List.intercalate_singleton, List.intercalate_singleton]
  · rw [intercalate_concat hne, intercalate_concat hne, List.append_assoc, List.cons_append]

/-- The characters of a field are in the text. -/
theorem subset_intercalate (hf : f ∈ fs) : f ⊆ [sep].intercalate fs := by
  induction fs with
  | nil => cases hf
  | cons g gs ih =>
    rcases gs with _ | ⟨g', gs⟩
    · rw [List.mem_singleton.1 hf, List.intercalate_singleton]
      exact List.Subset.refl g
    · rw [intercalate_cons]
      rcases List.mem_cons.1 hf with rfl | hf
      · exact List.subset_append_left f _
      · exact List.subset_append_of_subset_right _ (List.subset_cons_of_subset sep (ih hf))

/-- A character of the text is a separator, or in a field. -/
theorem eq_or_exists_of_mem_intercalate {c : α} (hc : c ∈ [sep].intercalate fs) :
    c = sep ∨ ∃ f ∈ fs, c ∈ f := by
  induction fs with
  | nil => cases hc
  | cons g gs ih =>
    rcases gs with _ | ⟨g', gs⟩
    · rw [List.intercalate_singleton] at hc
      exact .inr ⟨g, List.mem_singleton_self g, hc⟩
    · rw [intercalate_cons] at hc
      rcases List.mem_append.1 hc with hc | hc
      · exact .inr ⟨g, List.mem_cons_self, hc⟩
      · rcases List.mem_cons.1 hc with rfl | hc
        · exact .inl rfl
        · obtain h | ⟨f, hf, hcf⟩ := ih hc
          · exact .inl h
          · exact .inr ⟨f, List.mem_cons_of_mem g hf, hcf⟩

/-- Every text is made of fields without separators. -/
theorem exists_intercalate (sep : α) (s : List α) :
    ∃ f fs, (∀ g ∈ f :: fs, sep ∉ g) ∧ [sep].intercalate (f :: fs) = s := by
  induction s with
  | nil => exact ⟨[], [], List.forall_mem_singleton.2 List.not_mem_nil, rfl⟩
  | cons c s ih =>
    obtain ⟨f, fs, hfs, rfl⟩ := ih
    rcases eq_or_ne sep c with rfl | hc
    · exact ⟨[], f :: fs, List.forall_mem_cons.2 ⟨List.not_mem_nil, hfs⟩, rfl⟩
    · obtain ⟨hf, hfs⟩ := List.forall_mem_cons.1 hfs
      refine ⟨c :: f, fs, List.forall_mem_cons.2 ⟨?_, hfs⟩, ?_⟩
      · exact List.not_mem_cons_of_ne_of_not_mem hc hf
      · rcases fs with _ | ⟨g, gs⟩
        · rfl
        · rw [intercalate_cons, intercalate_cons, List.cons_append]

/-- The fields without separators are known from the text. -/
theorem intercalate_inj (hfs : ∀ f ∈ fs, sep ∉ f) (hgs : ∀ g ∈ gs, sep ∉ g) (hne : fs ≠ [])
    (hne' : gs ≠ []) : [sep].intercalate fs = [sep].intercalate gs ↔ fs = gs := by
  classical
  refine ⟨fun h => ?_, congrArg _⟩
  rw [← List.splitOn_intercalate sep hfs hne, h, List.splitOn_intercalate sep hgs hne']

/-- The prefixes of a list of fields. -/
theorem intercalate_prefix_iff (hfs : ∀ f ∈ fs, sep ∉ f) (hgs : ∀ g ∈ gs, sep ∉ g)
    (hne : fs ≠ []) (hne' : gs ≠ []) : [sep].intercalate fs <+: [sep].intercalate gs ↔
      ∃ init f g rest, fs = init ++ [f] ∧ gs = init ++ g :: rest ∧ f <+: g := by
  induction fs generalizing gs with
  | nil => exact absurd rfl hne
  | cons f fs ih =>
    rcases gs with _ | ⟨g, gs⟩
    · exact absurd rfl hne'
    obtain ⟨hf, hfs⟩ := List.forall_mem_cons.1 hfs
    obtain ⟨hg, hgs⟩ := List.forall_mem_cons.1 hgs
    -- The last field is a prefix of its counterpart. Each one before it ends at a separator, and
    -- is thus equal to it.
    rcases fs with _ | ⟨f', fs⟩
    · rw [List.intercalate_singleton]
      constructor
      · intro h
        refine ⟨[], f, g, gs, rfl, rfl, ?_⟩
        rcases gs with _ | ⟨g', gs⟩
        · rwa [List.intercalate_singleton] at h
        · rw [intercalate_cons] at h
          exact prefix_of_prefix_append hf h
      · rintro ⟨init, f₁, g₁, rest, h₁, h₂, hfg⟩
        rcases init with _ | ⟨x, init⟩
        · obtain ⟨rfl, -⟩ := List.cons.inj h₁
          obtain ⟨rfl, rfl⟩ := List.cons.inj h₂
          rcases gs with _ | ⟨g', gs⟩
          · rwa [List.intercalate_singleton]
          · rw [intercalate_cons]
            exact hfg.trans (List.prefix_append g _)
        · have hlen := congrArg List.length h₁
          simp at hlen
    · rcases gs with _ | ⟨g', gs⟩
      · -- There is no separator left on the right.
        refine iff_of_false (fun h => hg ?_) ?_
        · rw [intercalate_cons, List.intercalate_singleton] at h
          exact h.subset (List.mem_append_right _ List.mem_cons_self)
        · rintro ⟨init, f₁, g₁, rest, h₁, h₂, -⟩
          have hlen := congrArg List.length h₁
          have hlen' := congrArg List.length h₂
          simp only [List.length_append, List.length_cons, List.length_nil] at hlen hlen'
          omega
      · rw [intercalate_cons, intercalate_cons, prefix_append_cons hf hg,
          ih hfs hgs (List.cons_ne_nil _ _) (List.cons_ne_nil _ _)]
        constructor
        · rintro ⟨rfl, init, f₁, g₁, rest, h₁, h₂, hfg⟩
          exact ⟨f :: init, f₁, g₁, rest, congrArg _ h₁, congrArg _ h₂, hfg⟩
        · rintro ⟨init, f₁, g₁, rest, h₁, h₂, hfg⟩
          rcases init with _ | ⟨x, init⟩
          · obtain ⟨-, h₁⟩ := List.cons.inj h₁
            cases h₁
          · obtain ⟨hfx, h₁⟩ := List.cons.inj h₁
            obtain ⟨hgx, h₂⟩ := List.cons.inj h₂
            exact ⟨hfx.trans hgx.symm, init, f₁, g₁, rest, h₁, h₂, hfg⟩

end Fields
