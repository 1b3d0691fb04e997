import Mathlib.Data.Bool.AllAny
import Mksh.Command.Ipv6

/-!
# The text of an IPv6 address

An address is fields between colons. Which of them are empty decides whether it may be one
(`IsPattern`), and decides it for its prefixes too (`IsPattern.of_isPrefix`). Fields without dots
have a reading with the same pattern (`ofFields`), so that the scanners can be followed along
them (`cmdIpv6Match_joined`, `cmdIpv6PrefixMatch_joined`).
-/

namespace Mksh.Ipv6

open CString

/-! ## Addresses -/

/-- One to four hexadecimal digits. -/
def IsHexGroup (f : CString) : Prop := f ≠ [] ∧ f.length ≤ 4 ∧ ∀ c ∈ f, isxdigit c

instance : DecidablePred IsHexGroup := fun f =>
  decidable_of_iff (f ≠ [] ∧ f.length ≤ 4 ∧ f.all isxdigit) (by rw [IsHexGroup, List.all_eq_true])

/-- Fields between colons. -/
def joined (fs : List CString) : CString := [':'].intercalate fs

/-- Hexadecimal addresses: eight groups, or up to seven with a double colon. -/
inductive IsHexText : CString → Prop
  | full (gs : List CString) : (∀ g ∈ gs, IsHexGroup g) → gs.length = 8 → IsHexText (joined gs)
  | compressed (ls rs : List CString) : (∀ g ∈ ls, IsHexGroup g) → (∀ g ∈ rs, IsHexGroup g) →
      ls.length + rs.length ≤ 7 → IsHexText (joined ls ++ "::".toList ++ joined rs)

/-- The fields on one side of a double colon. -/
def padded (gs : List CString) : List CString := if gs = [] then [[]] else gs

/-- The fields that are empty, as `Reading.IsShape` finds them. -/
structure IsPattern (e : Bool) (es : List Bool) : Prop where
  head : e → ∀ e' ∈ es.head?, e'
  doubles_le : es.dropLast.count true ≤ 1
  colons_le : (if e then -1 else 0) + (es.length : ℤ) ≤ 7 + if [true, true] <:+ es then 1 else 0

/-- What is still missing for a prefix: the last field is empty only after a double colon, and the
    string is not. -/
def EndsClosed (e : Bool) (es : List Bool) : Prop :=
  (e → es ≠ []) ∧ (es.getLast? ≠ some true ∨ [true, true] <:+ es)

variable {f g : CString} {fs gs : List CString} {e : Bool} {es es' : List Bool}

/-- The first fields, with part of the next one. -/
theorem IsPattern.of_isPrefix {e₁ e₂ : Bool} (h : IsPattern e (es ++ e₂ :: es'))
    (he : e₂ → e₁) : IsPattern e (es ++ [e₁]) := by
  obtain ⟨hhead, hdoubles, hcolons⟩ := h
  refine ⟨fun htrue e' he' => ?_, ?_, ?_⟩
  · rcases es with _ | ⟨e₀, es⟩
    · obtain rfl := Option.some.inj he'
      exact he (hhead htrue e₂ rfl)
    · exact hhead htrue e' he'
  · rw [List.dropLast_append_of_ne_nil (List.cons_ne_nil e₂ es'), List.count_append] at hdoubles
    rw [List.dropLast_concat]
    omega
  · rcases es' with _ | ⟨e₃, es'⟩
    · -- The same fields, but for the last one, which may have been empty at the end.
      by_cases hsuffix : [true, true] <:+ es ++ [e₂]
      · have htrue : e₂ = true := by
          have hlast := hsuffix.getLast (List.cons_ne_nil _ _)
          simpa using hlast.symm
        obtain rfl : e₁ = e₂ := htrue ▸ he htrue
        exact hcolons
      · rw [if_neg hsuffix] at hcolons
        simp only [List.length_append, List.length_cons, List.length_nil] at hcolons ⊢
        split_ifs at hcolons ⊢ <;> push_cast at hcolons ⊢ <;> omega
    · simp only [List.length_append, List.length_cons, List.length_nil] at hcolons ⊢
      split_ifs at hcolons ⊢ <;> push_cast at hcolons ⊢ <;> omega

/-! ## Readings of fields -/

theorem count_map_isEmpty (fs : List (List CString)) :
    (fs.map List.isEmpty).count true = fs.count [] := by
  rw [List.count, List.countP_map, List.count]
  refine List.countP_congr fun f _ => ?_
  cases f <;> simp

theorem suffix_map_isEmpty (fs : List (List CString)) :
    [true, true] <:+ fs.map List.isEmpty ↔ [[], []] <:+ fs := by
  constructor
  · rintro h
    obtain ⟨gs, hgs, heq⟩ := List.suffix_map_iff.1 h
    match gs, heq with
    | [[], []], _ => exact hgs
  · exact fun h => h.map List.isEmpty

/-- The shape of a reading is the pattern of its empty groups. -/
theorem Reading.isShape_iff (r : Reading) :
    r.IsShape ↔ IsPattern r.head.isEmpty (r.rest.map List.isEmpty) := by
  have hhead : (r.head = [] → ∀ g ∈ r.rest.head?, g = []) ↔
      (r.head.isEmpty → ∀ e ∈ (r.rest.map List.isEmpty).head?, e) := by
    cases r.rest <;> simp
  have hcount : (r.rest.map List.isEmpty).dropLast.count true = r.rest.dropLast.count [] := by
    rw [← List.map_dropLast, count_map_isEmpty]
  have hsuffix := suffix_map_isEmpty r.rest
  rw [Reading.IsShape, hhead]
  constructor
  · rintro ⟨hhead, hdoubles, hcolons⟩
    refine ⟨hhead, by rw [hcount]; omega, ?_⟩
    simpa [hsuffix] using hcolons
  · rintro ⟨hhead, hdoubles, hcolons⟩
    refine ⟨hhead, by rw [← hcount]; omega, ?_⟩
    simpa [hsuffix] using hcolons

theorem getLast?_map_isEmpty (fs : List (List CString)) :
    (fs.map List.isEmpty).getLast? = some true ↔ fs.getLast? = some [] := by
  rw [List.getLast?_map]
  cases fs.getLast? with
  | none => simp
  | some f => simp

/-- So is whether it is complete, but for the dot. -/
theorem Reading.isComplete_iff (r : Reading) :
    r.IsComplete ↔ r.dot = false ∧ EndsClosed r.head.isEmpty (r.rest.map List.isEmpty) := by
  rw [Reading.IsComplete, EndsClosed, EndsWell, Ne, Ne, Ne, Ne, getLast?_map_isEmpty,
    suffix_map_isEmpty, List.isEmpty_iff, List.map_eq_nil_iff]

/-- The group of a field without dots. -/
def toGroup (f : CString) : List CString := if f = [] then [] else [f]

/-- A field without dots. -/
def IsPlain (f : CString) : Prop := ':' ∉ f ∧ '.' ∉ f

/-- A field read as a group has its own text. -/
theorem groupText_toGroup (f : CString) : groupText (toGroup f) = f := by
  rw [toGroup]
  split_ifs with hf
  · rw [hf, groupText_nil]
  · rw [groupText, List.intercalate_singleton]

theorem isEmpty_toGroup (f : CString) : (toGroup f).isEmpty = f.isEmpty := by
  cases f <;> rfl

/-- A plain field is a group. -/
theorem isGroup_toGroup (hf : IsPlain f) : IsGroup (toGroup f) := by
  rw [toGroup]
  split_ifs with hnil
  · exact isGroup_nil
  · refine ⟨List.forall_mem_singleton.2 ⟨hnil, fun c hc => ⟨?_, ?_⟩⟩, ?_⟩
    · rintro rfl
      exact hf.1 (List.mem_of_mem_tail hc)
    · rintro rfl
      exact hf.2 (List.mem_of_mem_tail hc)
    · obtain ⟨c, f, rfl⟩ := List.exists_cons_of_ne_nil hnil
      have hc : c ≠ ':' := fun h => hf.1 (h ▸ List.mem_cons_self)
      simpa using hc

/-- The reading of fields without dots. -/
def ofFields (f : CString) (fs : List CString) (h : ∀ g ∈ f :: fs, IsPlain g) : Reading where
  head := toGroup f
  rest := fs.map toGroup
  dot := false
  isGroup_head := isGroup_toGroup (h f List.mem_cons_self)
  isGroup_rest := by
    intro g hg
    obtain ⟨g', hg', rfl⟩ := List.mem_map.1 hg
    exact isGroup_toGroup (h g' (List.mem_cons_of_mem f hg'))
  dot_ne := fun h => absurd h Bool.false_ne_true

/-- The fields behind the first one, as the rest of a reading. -/
theorem joined_cons (f : CString) (fs : List CString) :
    joined (f :: fs) = f ++ restText (fs.map toGroup) := by
  induction fs generalizing f with
  | nil => rw [joined, List.intercalate_singleton]; exact (List.append_nil f).symm
  | cons g fs ih =>
    rw [joined, Fields.intercalate_cons, ← joined, ih, List.map_cons, restText_cons,
      groupText_toGroup]

/-- The reading of some fields has their text. -/
theorem ofFields_text (h : ∀ g ∈ f :: fs, IsPlain g) :
    (ofFields f fs h).text = joined (f :: fs) := by
  rw [Reading.text, joined_cons]
  simp [ofFields, groupText_toGroup, dotText]

theorem map_isEmpty_toGroup (fs : List CString) :
    (fs.map toGroup).map List.isEmpty = fs.map List.isEmpty := by
  rw [List.map_map]
  exact List.map_congr_left fun g _ => isEmpty_toGroup g

/-- Its shape is the pattern of the empty fields. -/
theorem ofFields_isShape (h : ∀ g ∈ f :: fs, IsPlain g) :
    (ofFields f fs h).IsShape ↔ IsPattern f.isEmpty (fs.map List.isEmpty) := by
  rw [Reading.isShape_iff, ofFields, isEmpty_toGroup, map_isEmpty_toGroup]

/-- So is whether it is complete. -/
theorem ofFields_isComplete (h : ∀ g ∈ f :: fs, IsPlain g) :
    (ofFields f fs h).IsComplete ↔ EndsClosed f.isEmpty (fs.map List.isEmpty) := by
  rw [Reading.isComplete_iff, ofFields, isEmpty_toGroup, map_isEmpty_toGroup, and_iff_right rfl]

/-- Hexadecimal digits. -/
def IsHexField (f : CString) : Prop := f.length ≤ 4 ∧ ∀ c ∈ f, isxdigit c

theorem IsHexGroup.isHexField (hf : IsHexGroup f) : IsHexField f := hf.2

/-- What is typed of a field is one. -/
theorem IsHexField.of_isPrefix (hf : IsHexField f) (hg : g <+: f) : IsHexField g :=
  ⟨hg.length_le.trans hf.1, fun c hc => hf.2 c (hg.subset hc)⟩

theorem mem_ipv6AddrStr {c : Char} : c ∈ ipv6AddrStr ↔ isxdigit c ∨ c ∈ [':', '.', '%'] := by
  have hxdigit : ∀ n < 128, isxdigit (Char.ofNat n) → Char.ofNat n ∈ ipv6AddrStr := by decide
  have hother : ∀ c ∈ [':', '.', '%'], c ∈ ipv6AddrStr := List.all_iff_forall_prop.1 (by decide)
  have hall : ∀ c ∈ ipv6AddrStr, isxdigit c ∨ c ∈ [':', '.', '%'] :=
    List.all_iff_forall_prop.1 (by decide)
  refine ⟨hall c, fun h => h.elim (fun hc => ?_) (hother c)⟩
  have hlt : c.toNat < 128 := by
    rw [isxdigit_iff] at hc
    omega
  exact Char.ofNat_toNat c ▸ hxdigit c.toNat hlt (by rwa [Char.ofNat_toNat])

/-- A field of hexadecimal digits is plain. -/
theorem IsHexField.isPlain (hf : IsHexField f) : IsPlain f :=
  ⟨fun h => absurd (hf.2 _ h) (by decide), fun h => absurd (hf.2 _ h) (by decide)⟩

/-- The text of such fields has allowed characters only. -/
theorem joined_mem (hfs : ∀ f ∈ fs, IsHexField f) : ∀ c ∈ joined fs, c ∈ ipv6AddrStr := by
  intro c hc
  obtain rfl | ⟨f, hf, hcf⟩ := Fields.eq_or_exists_of_mem_intercalate hc
  · decide
  · exact mem_ipv6AddrStr.2 (.inl ((hfs f hf).2 c hcf))

/-- The scanner for addresses, along hexadecimal fields. -/
theorem cmdIpv6Match_joined (hfs : ∀ g ∈ f :: fs, IsHexField g) :
    cmdIpv6Match (some (joined (f :: fs))) = .exactMatch ↔
      IsPattern f.isEmpty (fs.map List.isEmpty) := by
  have hplain : ∀ g ∈ f :: fs, IsPlain g := fun g hg => (hfs g hg).isPlain
  have htext := ofFields_text hplain
  have hchars : ∀ c ∈ (ofFields f fs hplain).text, c ∈ ipv6AddrStr := htext ▸ joined_mem hfs
  rw [← htext, cmdIpv6Match_text _ hchars, ofFields_isShape, and_iff_left]
  change ∀ g ∈ (f :: fs).map toGroup, (groupText g).length ≤ 4
  intro g hg
  obtain ⟨g', hg', rfl⟩ := List.mem_map.1 hg
  rw [groupText_toGroup]
  exact (hfs g' hg').1

variable {m : CString}

/-- A pattern has at most ten groups. -/
theorem IsPattern.length_le (h : IsPattern e es) : es.length ≤ 9 := by
  have hcolons := h.colons_le
  split_ifs at hcolons <;> omega

theorem length_toGroup_le (f : CString) : (toGroup f).length ≤ 1 := by
  rw [toGroup]
  split_ifs <;> simp

theorem sum_length_toGroup_le (fs : List CString) :
    ((fs.map toGroup).map List.length).sum ≤ fs.length := by
  induction fs with
  | nil => rfl
  | cons f fs ih =>
    have hle := length_toGroup_le f
    simp only [List.map_cons, List.sum_cons, List.length_cons]
    omega

/-- The scanner for prefixes, along hexadecimal fields. -/
theorem cmdIpv6PrefixMatch_joined (hfs : ∀ g ∈ f :: fs, IsHexField g)
    (hpattern : IsPattern f.isEmpty (fs.map List.isEmpty))
    (hends : EndsClosed f.isEmpty (fs.map List.isEmpty))
    (hm : IsDigits m) (hne : m ≠ []) (hval : decimal m ≤ 128) :
    cmdIpv6PrefixMatch (some (joined (f :: fs) ++ '/' :: m)) = .exactMatch := by
  have hplain : ∀ g ∈ f :: fs, IsPlain g := fun g hg => (hfs g hg).isPlain
  have htext := ofFields_text hplain
  have hchars : ∀ c ∈ (ofFields f fs hplain).text, c ∈ ipv6AddrStr := htext ▸ joined_mem hfs
  rw [← htext, cmdIpv6PrefixMatch_text _ hchars hm hne (ipv6Mask_eq_exactMatch hm hne hval)]
  refine ⟨(ofFields_isShape hplain).2 hpattern, (ofFields_isComplete hplain).2 hends, ?_, ?_⟩
  · have hlen := hpattern.length_le
    have hsum := sum_length_toGroup_le (f :: fs)
    -- Ten groups at most, of one part each, and one for the two colons.
    have hdoubles : (fs.map toGroup).dropLast.count [] ≤ 1 := by
      rw [← count_map_isEmpty, List.map_dropLast, map_isEmpty_toGroup]
      exact hpattern.doubles_le
    rw [List.length_map] at hlen
    rw [List.length_cons] at hsum
    change (((f :: fs).map toGroup).map List.length).sum + (fs.map toGroup).dropLast.count [] ≤ 11
    omega
  · change ∀ g ∈ (f :: fs).map toGroup, ShortParts g
    intro g hg
    obtain ⟨g', hg', rfl⟩ := List.mem_map.1 hg
    refine shortParts_of_length_le ?_
    rw [groupText_toGroup]
    exact (hfs g' hg').1

/-! ## The fields of an address -/

/-- The text of fields in a row. -/
theorem joined_append (hfs : fs ≠ []) (hgs : gs ≠ []) :
    joined (fs ++ gs) = joined fs ++ ':' :: joined gs :=
  Fields.intercalate_append hfs hgs

/-- The padding of a side does not change its text. -/
theorem joined_padded (gs : List CString) : joined (padded gs) = joined gs := by
  rw [padded]
  split_ifs with h
  · rw [h]
    rfl
  · rfl

theorem padded_ne_nil (gs : List CString) : padded gs ≠ [] := by
  rw [padded]
  split_ifs with h
  · exact List.cons_ne_nil _ _
  · exact h

/-- The text of two sides around two colons. -/
theorem joined_double (ls rs : List CString) :
    joined (padded ls ++ [] :: padded rs) = joined ls ++ "::".toList ++ joined rs := by
  obtain ⟨r, rs', hrs⟩ := List.exists_cons_of_ne_nil (padded_ne_nil rs)
  rw [joined_append (padded_ne_nil ls) (List.cons_ne_nil _ _), joined_padded, hrs, joined,
    joined, Fields.intercalate_cons, ← joined, ← joined, ← hrs, joined_padded, List.append_assoc]
  rfl

/-- No group of digits is empty. -/
theorem map_isEmpty_eq_replicate (hgs : ∀ g ∈ gs, IsHexGroup g) :
    gs.map List.isEmpty = List.replicate gs.length false := by
  refine List.eq_replicate_iff.2 ⟨List.length_map _, fun e he => ?_⟩
  obtain ⟨g, hg, rfl⟩ := List.mem_map.1 he
  exact List.isEmpty_eq_false_iff.2 (hgs g hg).1

instance : Decidable (IsPattern e es) :=
  decidable_of_iff ((e → ∀ e' ∈ es.head?, e') ∧ es.dropLast.count true ≤ 1 ∧
    (if e then -1 else 0) + (es.length : ℤ) ≤ 7 + if [true, true] <:+ es then 1 else 0)
    ⟨fun h => ⟨h.1, h.2.1, h.2.2⟩, fun h => ⟨h.1, h.2, h.3⟩⟩

instance : Decidable (EndsClosed e es) :=
  inferInstanceAs (Decidable ((e → es ≠ []) ∧ (es.getLast? ≠ some true ∨ [true, true] <:+ es)))

/-- What is empty of `n` groups on one side of a double colon. -/
def side (n : ℕ) : List Bool := if n = 0 then [true] else List.replicate n false

/-- The pattern of a side depends on its length only. -/
theorem map_isEmpty_padded (hgs : ∀ g ∈ gs, IsHexGroup g) :
    (padded gs).map List.isEmpty = side gs.length := by
  rw [padded, side]
  by_cases hnil : gs = []
  · rw [if_pos hnil, if_pos (List.length_eq_zero_iff.2 hnil)]
    rfl
  · rw [if_neg hnil, if_neg (fun h => hnil (List.length_eq_zero_iff.1 h)),
      map_isEmpty_eq_replicate hgs]

/-- Eight groups are a complete pattern. -/
theorem isPattern_full : IsPattern false (List.replicate 7 false) ∧
    EndsClosed false (List.replicate 7 false) := by decide

/-- So are two sides with at most seven groups, around two colons. -/
theorem isPattern_compressed {l r : ℕ} (hlr : l + r ≤ 7) (h : side l ++ true :: side r = e :: es) :
    IsPattern e es ∧ EndsClosed e es := by
  have hall : ∀ l ≤ 7, ∀ r ≤ 7 - l, ∀ e ∈ (side l ++ true :: side r).head?,
      IsPattern e (side l ++ true :: side r).tail ∧
        EndsClosed e (side l ++ true :: side r).tail := by decide
  have hpattern := hall l (by omega) r (by omega) e (by rw [h]; rfl)
  rwa [h] at hpattern

/-- An address is fields of the pattern. -/
theorem IsHexText.exists_fields {a : CString} (ha : IsHexText a) :
    ∃ f fs, a = joined (f :: fs) ∧ (∀ g ∈ f :: fs, IsHexField g) ∧
      IsPattern f.isEmpty (fs.map List.isEmpty) ∧ EndsClosed f.isEmpty (fs.map List.isEmpty) := by
  cases ha with
  | full gs hgs hlen =>
    obtain ⟨f, fs, rfl⟩ := List.exists_cons_of_length_eq_add_one hlen
    obtain ⟨he, hes⟩ := List.cons.inj (hlen ▸ map_isEmpty_eq_replicate hgs)
    refine ⟨f, fs, rfl, fun g hg => (hgs g hg).isHexField, ?_⟩
    rw [he, hes]
    exact isPattern_full
  | compressed ls rs hls hrs hlen =>
    obtain ⟨f, fs, hfs⟩ := List.exists_cons_of_ne_nil (padded_ne_nil ls)
    -- The pattern of the fields is that of the two sides, with an empty one between them.
    have hside : side ls.length ++ true :: side rs.length =
        f.isEmpty :: (fs ++ [] :: padded rs).map List.isEmpty := by
      rw [← map_isEmpty_padded hls, ← map_isEmpty_padded hrs, hfs, List.map_append]
      rfl
    refine ⟨f, fs ++ [] :: padded rs, ?_, ?_, isPattern_compressed hlen hside⟩
    · rw [← joined_double, hfs]
      rfl
    · have hnil : IsHexField [] := ⟨Nat.zero_le 4, List.forall_mem_nil _⟩
      have hpadded {gs} (hgs : ∀ g ∈ gs, IsHexGroup g) : ∀ g ∈ padded gs, IsHexField g := by
        intro g hg
        rw [padded] at hg
        split_ifs at hg
        · exact List.mem_singleton.1 hg ▸ hnil
        · exact (hgs g hg).isHexField
      rw [← List.cons_append, ← hfs]
      exact List.forall_mem_append.2 ⟨hpadded hls, List.forall_mem_cons.2 ⟨hnil, hpadded hrs⟩⟩

end Mksh.Ipv6
