import Mksh.Command.Ipv6.Typed

/-!
# What is accepted and is no IPv6 address

An address has eight groups, or fewer with a double colon, possibly an IPv4 address instead of the
last two groups, and possibly a zone (`IsIpv6Text`). The scanners count groups and colons, but
only as long as they may still get more; they do not know which characters belong to a group, and
the one for prefixes truncates the mask. So what they accept is an address unless its fields have
one of the flaws they overlook (`IsFlawed`), or the mask is too large by a multiple of `2 ^ 32`
(`cmdIpv6Match_iff`).
-/

namespace Mksh.Ipv6

open CString

/-! ## Addresses -/

/-- Groups, possibly with an IPv4 address at the end, which stands for two of them. -/
inductive IsGroups : List CString → ℕ → Prop
  | hex (gs : List CString) : (∀ g ∈ gs, IsHexGroup g) → IsGroups gs gs.length
  | quad (gs : List CString) (q : CString) : (∀ g ∈ gs, IsHexGroup g) → IsIpv4 q →
      IsGroups (gs ++ [q]) (gs.length + 2)

/-- The texts of IPv6 addresses: eight groups, or fewer with `::` for the others. -/
inductive IsIpv6 : CString → Prop
  | full (gs : List CString) : IsGroups gs 8 → IsIpv6 (joined gs)
  | compressed (ls rs : List CString) (n : ℕ) : (∀ g ∈ ls, IsHexGroup g) → IsGroups rs n →
      ls.length + n ≤ 7 → IsIpv6 (joined ls ++ "::".toList ++ joined rs)

/-- What a zone may be. -/
def IsZone (z : CString) : Prop := z ≠ [] ∧ '%' ∉ z ∧ ':' ∉ z

/-- The texts of IPv6 addresses, which may have a zone. -/
inductive IsIpv6Text : CString → Prop
  | plain (a : CString) : IsIpv6 a → IsIpv6Text a
  | zoned (a z : CString) : IsIpv6 a → IsZone z → IsIpv6Text (a ++ '%' :: z)

/-- The texts of IPv6 prefixes. -/
def IsIpv6PrefixText (s : CString) : Prop :=
  ∃ a m, s = a ++ '/' :: m ∧ IsIpv6Text a ∧ m ≠ [] ∧ IsDigits m ∧ decimal m ≤ 128

/-! ## Flaws -/

/-- The last field before its zone. -/
def base (last : CString) : CString := last.takeWhile (· ≠ '%')

/-- The groups that fields stand for. -/
def words (init : List CString) (last : CString) : ℕ :=
  (init ++ [last]).countP (· ≠ []) + if '.' ∈ last then 1 else 0

/-- What may be wrong with the fields. -/
inductive IsFlawed (init : List CString) (last : CString) : Prop
  /-- A group is not one to four hexadecimal digits. -/
  | group (f : CString) : f ∈ init → f ≠ [] → ¬IsHexGroup f → IsFlawed init last
  /-- The last one is no IPv4 address either. -/
  | last : base last ≠ [] → ¬IsHexGroup (base last) → ¬IsIpv4 (base last) → IsFlawed init last
  | zone (z : CString) : last.dropWhile (· ≠ '%') = '%' :: z → ¬IsZone z → IsFlawed init last
  /-- There is nothing after a single colon, or nothing at all. -/
  | single : base last = [] → ¬[[], []] <:+ (init ++ [base last]).tail → IsFlawed init last
  | many : [] ∈ init → 7 < words init (base last) → IsFlawed init last
  | number : [] ∉ init → words init (base last) ≠ 8 → IsFlawed init last

variable {r : Reading} {init fs gs : List CString} {f g last z a m s : CString}

/-- The fields of a reading, but for the last one. -/
def Reading.initFields (r : Reading) : List CString := (r.head :: r.rest).dropLast.map groupText

/-- What stands after the last colon. -/
def Reading.lastField (r : Reading) : CString :=
  groupText ((r.head :: r.rest).getLast (List.cons_ne_nil _ _)) ++ dotText r.dot

/-- The scanner for addresses accepts the string, in spite of a flaw. -/
def IsLax (s : CString) : Prop :=
  (∀ c ∈ s, c ∈ ipv6AddrStr) ∧ ∀ r : Reading, r.text = s → r.IsShape ∧
    (∀ g ∈ closedGroups r.dot (r.head :: r.rest), (groupText g).length ≤ 4) ∧
    IsFlawed r.initFields r.lastField

/-- The scanner for prefixes accepts the string, in spite of a flaw or of the mask. -/
def IsLaxPrefix (s : CString) : Prop :=
  ∃ a m, s = a ++ '/' :: m ∧ '/' ∉ a ∧ (∀ c ∈ a, c ∈ ipv6AddrStr) ∧ m ≠ [] ∧ IsDigits m ∧
    decimal m < 2 ^ 63 ∧ decimal m % 2 ^ 32 ≤ 128 ∧
    ∀ r : Reading, r.text = a → r.IsPrefixed ∧ (IsFlawed r.initFields r.lastField ∨ 128 < decimal m)

/-! ## Fields without flaws -/

/-- The fields of an address. -/
structure IsClean (init : List CString) (l : CString) : Prop where
  group : ∀ f ∈ init, f ≠ [] → IsHexGroup f
  last : l ≠ [] → IsHexGroup l ∨ IsIpv4 l
  single : l = [] → [[], []] <:+ (init ++ [l]).tail
  many : [] ∈ init → words init l ≤ 7
  number : [] ∉ init → words init l = 8

/-- What has no flaw is clean, and a zone after it is one. -/
theorem not_isFlawed_iff : ¬IsFlawed init last ↔
    IsClean init (base last) ∧ ∀ z, last.dropWhile (· ≠ '%') = '%' :: z → IsZone z := by
  constructor
  · intro h
    refine ⟨⟨fun f hf hne => ?_, fun hne => ?_, fun hnil => ?_, fun hmem => ?_, fun hmem => ?_⟩,
      fun z hz => ?_⟩
    · by_contra hgroup
      exact h (.group f hf hne hgroup)
    · by_contra hlast
      rw [not_or] at hlast
      exact h (.last hne hlast.1 hlast.2)
    · by_contra hsingle
      exact h (.single hnil hsingle)
    · by_contra hmany
      exact h (.many hmem (not_le.1 hmany))
    · by_contra hnumber
      exact h (.number hmem hnumber)
    · by_contra hzone
      exact h (.zone z hz hzone)
  · rintro ⟨hclean, hzone⟩ hflaw
    cases hflaw with
    | group f hf hne hgroup => exact hgroup (hclean.group f hf hne)
    | last hne hhex hipv4 => exact (hclean.last hne).elim hhex hipv4
    | zone z hz hnot => exact hnot (hzone z hz)
    | single hnil hsingle => exact hsingle (hclean.single hnil)
    | many hmem hmany => exact absurd (hclean.many hmem) (not_le.2 hmany)
    | number hmem hnumber => exact hnumber (hclean.number hmem)

/-- A group of digits has no other characters. -/
theorem IsHexGroup.notMem (hf : IsHexGroup f) {c : Char} (hc : isxdigit c = false) : c ∉ f :=
  fun h => by
    rw [hf.2.2 c h] at hc
    cases hc

/-- An embedded IPv4 address has a dot. -/
theorem dot_mem_of_isIpv4 (hf : IsIpv4 f) : '.' ∈ f := by
  obtain ⟨gs, hlen, -, rfl⟩ := hf
  match gs, hlen with
  | g :: g' :: gs, _ =>
    rw [Fields.intercalate_cons]
    exact List.mem_append_right g List.mem_cons_self

/-- It has no characters but digits and dots. -/
theorem notMem_of_isIpv4 (hf : IsIpv4 f) {c : Char} (hc : isdigit c = false) (hdot : c ≠ '.') :
    c ∉ f := by
  obtain ⟨gs, -, hgs, rfl⟩ := hf
  intro hmem
  obtain h | ⟨g, hg, hcg⟩ := Fields.eq_or_exists_of_mem_intercalate hmem
  · exact hdot h
  · exact absurd ((hgs g hg).2.1 c hcg) (by simp [hc])

/-- Groups with one more. -/
theorem isGroups_concat (hgs : ∀ g ∈ gs, IsHexGroup g) (hg : IsHexGroup g ∨ IsIpv4 g) :
    IsGroups (gs ++ [g]) (gs.length + 1 + if '.' ∈ g then 1 else 0) := by
  rcases hg with hg | hg
  · have hall : ∀ f ∈ gs ++ [g], IsHexGroup f :=
      List.forall_mem_append.2 ⟨hgs, List.forall_mem_singleton.2 hg⟩
    have hgroups := IsGroups.hex _ hall
    rwa [if_neg (hg.notMem (by decide)), Nat.add_zero, ← List.length_singleton,
      ← List.length_append]
  · rw [if_pos (dot_mem_of_isIpv4 hg)]
    exact IsGroups.quad gs g hgs hg

theorem countP_eq_length (hgs : [] ∉ gs) : gs.countP (· ≠ []) = gs.length := by
  rw [List.countP_eq_length]
  intro g hg
  have hne : g ≠ [] := fun h => hgs (h ▸ hg)
  simpa using hne

/-- The words of an address without two colons. -/
theorem words_full (hinit : [] ∉ init) (hne : last ≠ []) :
    words init last = init.length + 1 + if '.' ∈ last then 1 else 0 := by
  rw [words, countP_eq_length, List.length_append, List.length_singleton]
  simp [hinit, Ne.symm hne]

/-- Fields without a double colon. -/
theorem isIpv6_full (hgroup : ∀ f ∈ init, f ≠ [] → IsHexGroup f)
    (hlast : IsHexGroup last ∨ IsIpv4 last) (hne : last ≠ []) (hnil : [] ∉ init)
    (hwords : words init last = 8) : IsIpv6 (joined (init ++ [last])) := by
  have hgroups : IsGroups (init ++ [last]) (init.length + 1 + if '.' ∈ last then 1 else 0) :=
    isGroups_concat (fun f hf => hgroup f hf fun h => hnil (h ▸ hf)) hlast
  rw [← words_full hnil hne, hwords] at hgroups
  exact .full _ hgroups

theorem IsHexGroup.notMem_nil (hgs : ∀ g ∈ gs, IsHexGroup g) : [] ∉ gs :=
  fun h => (hgs [] h).1 rfl

/-- The padding of a side does not count as a group. -/
theorem countP_padded (hgs : ∀ g ∈ gs, IsHexGroup g) :
    (padded gs).countP (· ≠ []) = gs.length := by
  rw [padded]
  split_ifs with hnil
  · rw [hnil]
    rfl
  · exact countP_eq_length (IsHexGroup.notMem_nil hgs)

/-- The words of an address with two colons are those of its sides. -/
theorem words_compressed {ls rs : List CString} (hls : ∀ g ∈ ls, IsHexGroup g)
    (hrs : ∀ g ∈ rs, IsHexGroup g) (last : CString) : words (padded ls ++ [] :: rs) last =
      ls.length + rs.length + [last].countP (· ≠ []) + if '.' ∈ last then 1 else 0 := by
  have hcons : ([] :: rs).countP (· ≠ []) = rs.length := by
    rw [List.countP_cons_of_neg (by simp), countP_eq_length (IsHexGroup.notMem_nil hrs)]
  rw [words, List.countP_append, List.countP_append, countP_padded hls, hcons]

/-- Fields with a double colon, after the groups `ls`. -/
theorem isIpv6_compressed {ls rs : List CString} (hls : ∀ g ∈ ls, IsHexGroup g)
    (hrs : ∀ g ∈ rs, IsHexGroup g) (hlast : last ≠ [] → IsHexGroup last ∨ IsIpv4 last)
    (hsingle : last = [] → rs = []) (hwords : words (padded ls ++ [] :: rs) last ≤ 7) :
    IsIpv6 (joined (padded ls ++ [] :: rs ++ [last])) := by
  rw [words_compressed hls hrs] at hwords
  rcases eq_or_ne last [] with rfl | hne
  · rw [hsingle rfl] at hwords ⊢
    have hpadded : padded ls ++ [[]] ++ [[]] = padded ls ++ [] :: padded [] := by
      rw [List.append_assoc]
      rfl
    rw [hpadded, joined_double]
    exact .compressed ls [] 0 hls (IsGroups.hex [] (List.forall_mem_nil _)) (by simpa using hwords)
  · have hpadded : padded ls ++ [] :: rs ++ [last] = padded ls ++ [] :: padded (rs ++ [last]) := by
      have hrs : padded (rs ++ [last]) = rs ++ [last] := if_neg (by simp)
      rw [hrs, List.append_assoc, List.cons_append]
    have hone : [last].countP (· ≠ []) = 1 := by simp [hne]
    rw [hpadded, joined_double]
    exact .compressed ls _ _ hls (isGroups_concat hrs (hlast hne)) (by omega)

/-- Two empty fields at the end leave one at the end of the others. -/
theorem eq_concat_of_suffix (h : [[], []] <:+ fs ++ [last]) : ∃ t, fs = t ++ [[]] := by
  obtain ⟨t, ht⟩ := h
  have ht' : t ++ [[]] ++ [[]] = fs ++ [last] := by
    rw [List.append_assoc]
    exact ht
  exact ⟨t, (List.append_inj' ht' rfl).1.symm⟩

/-- An empty first field is one of two. -/
theorem IsClean.nil_mem (h : IsClean (f :: fs) last) (hnil : [] ∈ f :: fs)
    (hhead : f = [] → ∀ g ∈ (fs ++ [last]).head?, g = []) : [] ∈ fs := by
  rcases List.mem_cons.1 hnil with hf | hfs
  · rcases fs with _ | ⟨f', fs⟩
    · have hlen := (h.single (hhead hf.symm last rfl)).length_le
      simp at hlen
    · exact hhead hf.symm f' rfl ▸ List.mem_cons_self
  · exact hfs

/-- An empty last field comes right after the empty one before it. -/
theorem IsClean.eq_nil_of_last {ls rs : List CString} (h : IsClean (f :: (ls ++ [] :: rs)) last)
    (hrs : [] ∉ rs) (hlast : last = []) : rs = [] := by
  have hsingle := h.single hlast
  rw [List.cons_append, List.tail_cons] at hsingle
  rcases List.eq_nil_or_concat rs with hrs' | ⟨rs', g, rfl⟩
  · exact hrs'
  · rw [List.concat_eq_append] at hrs hsingle
    obtain ⟨t, ht⟩ := eq_concat_of_suffix hsingle
    rw [← List.cons_append, ← List.append_assoc] at ht
    have hg : [g] = [[]] := (List.append_inj' ht rfl).2
    exact absurd (List.head_eq_of_cons_eq hg ▸ List.mem_append_right rs' List.mem_cons_self) hrs

/-- The last field is empty after another empty one only. -/
theorem IsClean.last_ne_nil (h : IsClean init last) (hnil : [] ∉ init) : last ≠ [] := by
  intro hlast
  have hsuffix := h.single hlast
  rcases init with _ | ⟨f, fs⟩
  · exact absurd hsuffix.length_le (by simp)
  · obtain ⟨t, rfl⟩ := eq_concat_of_suffix hsuffix
    exact hnil (by simp)

/-- The fields of an address, of the shape that the scanners see. -/
theorem IsClean.isIpv6 (h : IsClean init last)
    (hhead : ∀ f fs, init = f :: fs → f = [] → ∀ g ∈ (fs ++ [last]).head?, g = [])
    (hdoubles : init.tail.count [] ≤ 1) : IsIpv6 (joined (init ++ [last])) := by
  by_cases hnil : [] ∈ init
  · obtain ⟨f, fs, rfl⟩ := List.exists_cons_of_ne_nil (List.ne_nil_of_mem hnil)
    have hhead := hhead f fs rfl
    rw [List.tail_cons] at hdoubles
    -- The double colon is the empty field after the groups `ls` and before the groups `rs`.
    obtain ⟨ls, rs, rfl, hls⟩ := List.eq_append_cons_of_mem (h.nil_mem hnil hhead)
    have hrs : [] ∉ rs := by
      rw [List.count_append, List.count_cons_self] at hdoubles
      exact List.count_eq_zero.1 (by omega)
    have hpadded : f :: ls = padded (if f = [] then [] else f :: ls) := by
      split_ifs with hf
      · rcases ls with _ | ⟨l, ls⟩
        · rw [hf]
          rfl
        · exact absurd (hhead hf l rfl ▸ List.mem_cons_self) hls
      · rfl
    have hgroups (gs : List CString) (hgs : [] ∉ gs) (hsub : gs ⊆ f :: (ls ++ [] :: rs)) :
        ∀ g ∈ gs, IsHexGroup g := fun g hg => h.group g (hsub hg) fun h => hgs (h ▸ hg)
    have hmany := h.many
    rw [← List.cons_append, hpadded] at hmany ⊢
    refine isIpv6_compressed ?_ (hgroups rs hrs ?_) h.last (h.eq_nil_of_last hrs) (hmany ?_)
    · split_ifs with hf
      · exact List.forall_mem_nil _
      · refine hgroups (f :: ls) ?_ (List.cons_subset_cons f (List.subset_append_left ls _))
        exact List.not_mem_cons_of_ne_of_not_mem (Ne.symm hf) hls
    · exact List.subset_cons_of_subset f
        (List.subset_append_of_subset_right ls (List.subset_cons_self _ _))
    · rw [← hpadded]
      exact hnil
  · have hne := h.last_ne_nil hnil
    exact isIpv6_full h.group (h.last hne) hne hnil (h.number hnil)

/-! ## Readings without flaws -/

/-- Only the empty group has an empty text. -/
theorem groupText_eq_nil {g : List CString} (hg : IsGroup g) : groupText g = [] ↔ g = [] := by
  refine ⟨fun h => ?_, fun h => h ▸ groupText_nil⟩
  by_contra hne
  exact groupText_ne_nil hg hne [] (by rw [h, List.append_nil])

/-- The texts of the groups, joined with colons. -/
theorem joined_map_groupText (g : List CString) (gs : List (List CString)) :
    joined ((g :: gs).map groupText) = groupText g ++ restText gs := by
  induction gs generalizing g with
  | nil =>
    rw [List.map_singleton, joined, List.intercalate_singleton]
    exact (List.append_nil _).symm
  | cons h gs ih =>
    rw [restText_cons, ← ih, List.map_cons, List.map_cons, joined, joined, Fields.intercalate_cons]

/-- The text that is read is that of its fields. -/
theorem Reading.text_eq (r : Reading) : r.text = joined (r.initFields ++ [r.lastField]) := by
  have hfields : r.initFields ++ [groupText ((r.head :: r.rest).getLast (List.cons_ne_nil _ _))] =
      (r.head :: r.rest).map groupText := by
    conv_rhs => rw [← List.dropLast_append_getLast (List.cons_ne_nil r.head r.rest)]
    rw [List.map_append, List.map_singleton, Reading.initFields]
  rw [Reading.text, ← joined_map_groupText, Reading.lastField, joined, joined,
    Fields.intercalate_append_last, hfields]

/-- The empty fields are the empty groups. -/
theorem count_map_groupText {gs : List (List CString)} (hgs : ∀ g ∈ gs, IsGroup g) :
    (gs.map groupText).count [] = gs.count [] := by
  rw [List.count, List.countP_map, List.count]
  refine List.countP_congr fun g hg => ?_
  simp [groupText_eq_nil (hgs g hg)]

/-- The first field of the shape. -/
theorem Reading.IsShape.head (hshape : r.IsShape) {f : CString} {fs : List CString}
    (hinit : r.initFields = f :: fs) (hf : f = []) :
    ∀ g ∈ (fs ++ [base r.lastField]).head?, g = [] := by
  obtain ⟨head, rest, dot, hhead, hrest, hdot⟩ := r
  rcases rest with _ | ⟨k, gs⟩
  · cases hinit
  rw [Reading.initFields, List.dropLast_cons_cons, List.map_cons] at hinit
  obtain ⟨rfl, rfl⟩ := List.cons.inj hinit
  obtain rfl : k = [] := hshape.1 ((groupText_eq_nil hhead).1 hf) k rfl
  intro g hg
  rcases gs with _ | ⟨l, gs⟩
  · obtain rfl : dot = false := Bool.eq_false_iff.2 fun h => hdot h rfl
    exact (Option.some.inj hg).symm
  · exact (Option.some.inj hg).symm

/-- The double colons of the shape. -/
theorem Reading.IsShape.count_le (hshape : r.IsShape) : r.initFields.tail.count [] ≤ 1 := by
  have hdoubles := hshape.2.doubles_le
  rw [Reading.initFields]
  rcases hrest : r.rest with _ | ⟨g, gs⟩
  · exact Nat.zero_le 1
  · rw [List.dropLast_cons_cons, List.map_cons, List.tail_cons, ← hrest, count_map_groupText]
    · omega
    · exact fun g hg => r.isGroup_rest g (List.mem_of_mem_dropLast hg)

/-- What is left of a last field that has a zone. -/
theorem base_append_dropWhile (last : CString) : base last ++ last.dropWhile (· ≠ '%') = last :=
  List.takeWhile_append_dropWhile

/-- A reading of the shape that has no flaws is one of an address. -/
theorem Reading.isIpv6Text_of_not (hshape : r.IsShape)
    (hflaw : ¬IsFlawed r.initFields r.lastField) : IsIpv6Text r.text := by
  obtain ⟨hclean, hzones⟩ := not_isFlawed_iff.1 hflaw
  have hipv6 := hclean.isIpv6 (fun f fs hinit hf => hshape.head hinit hf) hshape.count_le
  have hlast := base_append_dropWhile r.lastField
  rw [Reading.text_eq]
  rcases hzone : r.lastField.dropWhile (· ≠ '%') with _ | ⟨c, z⟩
  · rw [hzone, List.append_nil] at hlast
    rw [← hlast]
    exact .plain _ hipv6
  · obtain rfl : c = '%' := by
      have hnot := List.head?_dropWhile_not (· ≠ '%') r.lastField
      rw [hzone] at hnot
      simpa using hnot
    rw [hzone] at hlast
    rw [← hlast, joined, Fields.intercalate_append_last]
    exact .zoned _ z hipv6 (hzones z hzone)

/-- The last group. -/
theorem IsGroups.exists_concat {n : ℕ} (hgs : IsGroups gs n) (hne : gs ≠ []) :
    ∃ init last, gs = init ++ [last] ∧ (∀ g ∈ init, IsHexGroup g) ∧
      (IsHexGroup last ∨ IsIpv4 last) ∧ n = init.length + 1 + if '.' ∈ last then 1 else 0 := by
  cases hgs with
  | hex _ hhex =>
    obtain ⟨init, last, rfl⟩ := (List.eq_nil_or_concat' gs).resolve_left hne
    obtain ⟨hinit, hlast⟩ := List.forall_mem_append.1 hhex
    have hlast := hlast last (List.mem_singleton_self last)
    refine ⟨init, last, rfl, hinit, .inl hlast, ?_⟩
    rw [if_neg (hlast.notMem (by decide)), List.length_append, List.length_singleton]
  | quad init q hinit hq =>
    exact ⟨init, q, rfl, hinit, .inr hq, by rw [if_pos (dot_mem_of_isIpv4 hq)]⟩

theorem IsGroups.eq_zero {n : ℕ} (h : IsGroups gs n) (hgs : gs = []) : n = 0 := by
  cases h with
  | hex => rw [hgs, List.length_nil]
  | quad => simp at hgs

/-- The last field of an address is not empty. -/
theorem ne_nil_of_group (hlast : IsHexGroup last ∨ IsIpv4 last) : last ≠ [] :=
  hlast.elim And.left fun h => List.ne_nil_of_mem (dot_mem_of_isIpv4 h)

/-- An address is made of clean fields. -/
theorem IsIpv6.exists_fields (ha : IsIpv6 a) :
    ∃ init last, a = joined (init ++ [last]) ∧ IsClean init last := by
  cases ha with
  | full gs hgs =>
    have hne : gs ≠ [] := fun h => absurd (hgs.eq_zero h) (by decide)
    obtain ⟨init, last, rfl, hinit, hlast, hn⟩ := hgs.exists_concat hne
    have hne := ne_nil_of_group hlast
    refine ⟨init, last, rfl, fun f hf _ => hinit f hf, fun _ => hlast, fun h => absurd h hne,
      fun h => absurd h (IsHexGroup.notMem_nil hinit), fun h => ?_⟩
    rw [words_full h hne]
    exact hn.symm
  | compressed ls rs n hls hrs hlen =>
    have hmem (bs : List CString) : [] ∈ padded ls ++ [] :: bs :=
      List.mem_append_right _ List.mem_cons_self
    have hpadded {f : CString} (hf : f ∈ padded ls) (hne : f ≠ []) : IsHexGroup f := by
      rw [padded] at hf
      split_ifs at hf
      · exact absurd (List.mem_singleton.1 hf) hne
      · exact hls f hf
    -- With nothing behind the two colons, the last field is empty. Else, it is the last group of
    -- that side.
    rcases eq_or_ne rs [] with rfl | hne
    · refine ⟨padded ls ++ [[]], [], ?_, fun f hf hne => ?_, fun h => absurd rfl h, fun _ => ?_,
        fun _ => ?_, fun h => absurd (hmem []) h⟩
      · rw [← joined_double, List.append_assoc]
        rfl
      · rcases List.mem_append.1 hf with hf | hf
        · exact hpadded hf hne
        · exact absurd (List.mem_singleton.1 hf) hne
      · obtain ⟨f, fs, hfs⟩ := List.exists_cons_of_ne_nil (padded_ne_nil ls)
        rw [hfs, List.append_assoc]
        exact List.suffix_append fs _
      · rw [words_compressed hls (List.forall_mem_nil _)]
        have hle : ls.length ≤ 7 := by omega
        simpa using hle
    · obtain ⟨bs, last, rfl, hbs, hlast, hn⟩ := hrs.exists_concat hne
      have hne := ne_nil_of_group hlast
      refine ⟨padded ls ++ [] :: bs, last, ?_, fun f hf hne => ?_, fun _ => hlast,
        fun h => absurd h hne, fun _ => ?_, fun h => absurd (hmem bs) h⟩
      · have hrs : padded (bs ++ [last]) = bs ++ [last] := if_neg (by simp)
        rw [← joined_double, hrs, List.append_assoc, List.cons_append]
      · rcases List.mem_append.1 hf with hf | hf
        · exact hpadded hf hne
        · exact hbs f ((List.mem_cons.1 hf).resolve_left hne)
      · have hone : [last].countP (· ≠ []) = 1 := by simp [hne]
        rw [words_compressed hls hbs, hone]
        omega

/-- A reading of given fields. -/
theorem exists_reading_of_fields (hinit : ∀ f ∈ init, IsPlain f) (hlast : ':' ∉ last) :
    ∃ r : Reading, r.initFields = init ∧ r.lastField = last := by
  obtain ⟨⟨g, gs, dot, hg, hgs, hdot⟩, rfl⟩ := exists_reading last
  obtain rfl : gs = [] := by
    rcases gs with _ | ⟨k, gs⟩
    · rfl
    · exact absurd (by simp [Reading.text, restText_cons]) hlast
  have hall : ∀ f ∈ init.map toGroup ++ [g], IsGroup f := by
    refine List.forall_mem_append.2 ⟨fun f hf => ?_, List.forall_mem_singleton.2 hg⟩
    obtain ⟨f', hf', rfl⟩ := List.mem_map.1 hf
    exact isGroup_toGroup (hinit f' hf')
  obtain ⟨head, rest, heq⟩ := List.exists_cons_of_ne_nil
    (List.append_ne_nil_of_right_ne_nil (init.map toGroup) (List.cons_ne_nil g []))
  rw [heq] at hall
  obtain ⟨hhead, hrest⟩ := List.forall_mem_cons.1 hall
  refine ⟨⟨head, rest, dot, hhead, hrest, fun h => ?_⟩, ?_, ?_⟩
  · simp only [← heq, List.getLast_append_singleton]
    exact hdot h
  · simp only [Reading.initFields, ← heq, List.dropLast_concat, List.map_map]
    exact (List.map_congr_left fun f _ => groupText_toGroup f).trans (List.map_id init)
  · simp only [Reading.lastField, ← heq, List.getLast_append_singleton, Reading.text, restText,
      List.flatMap_nil, List.append_nil]

/-- A clean last field has hexadecimal digits and dots only. -/
theorem IsClean.notMem (h : IsClean init last) {c : Char} (hc : isxdigit c = false)
    (hdot : c ≠ '.') : c ∉ last := by
  rcases eq_or_ne last [] with rfl | hne
  · exact List.not_mem_nil
  · have hdigit : isdigit c = false := by
      rw [isxdigit, Bool.or_eq_false_iff, Bool.or_eq_false_iff] at hc
      exact hc.1.1
    exact (h.last hne).elim (fun hhex => hhex.notMem hc) fun hipv4 =>
      notMem_of_isIpv4 hipv4 hdigit hdot

/-- A last field with a zone, or with nothing more. -/
theorem IsClean.exists_reading (h : IsClean init last) (hcolon : ':' ∉ s)
    (hs : s = [] ∨ ∃ z, s = '%' :: z ∧ IsZone z) :
    ∃ r : Reading, r.text = joined (init ++ [last]) ++ s ∧
      ¬IsFlawed r.initFields r.lastField := by
  have hplain : ∀ f ∈ init, IsPlain f := by
    intro f hf
    rcases eq_or_ne f [] with rfl | hne
    · exact ⟨List.not_mem_nil, List.not_mem_nil⟩
    · exact (h.group f hf hne).isHexField.isPlain
  have hmem : ':' ∉ last ++ s := by
    rw [List.mem_append, not_or]
    exact ⟨h.notMem (by decide) (by decide), hcolon⟩
  obtain ⟨r, hinit, hlast⟩ := exists_reading_of_fields hplain hmem
  refine ⟨r, ?_, ?_⟩
  · rw [r.text_eq, hinit, hlast, joined, joined, Fields.intercalate_append_last]
  · have hpercent : ∀ c ∈ last, decide (c ≠ '%') := by
      intro c hc
      have hne : c ≠ '%' := by
        rintro rfl
        exact h.notMem (by decide) (by decide) hc
      simpa using hne
    -- There is no percent sign in the last field, so that the zone is what is dropped.
    have htake : base (last ++ s) = last := by
      rw [base, List.takeWhile_append_of_pos hpercent]
      rcases hs with rfl | ⟨z, rfl, -⟩
      · exact List.append_nil last
      · exact List.append_nil last
    have hdrop : (last ++ s).dropWhile (· ≠ '%') = s := by
      rw [List.dropWhile_append_of_pos hpercent]
      rcases hs with rfl | ⟨z, rfl, -⟩
      · rfl
      · rfl
    rw [hinit, hlast, not_isFlawed_iff, htake, hdrop]
    refine ⟨h, fun z hz => ?_⟩
    rcases hs with rfl | ⟨z', rfl, hzone⟩
    · cases hz
    · rwa [← (List.cons.inj hz).2]

/-- An address has a reading without flaws. -/
theorem IsIpv6Text.exists_reading (hs : IsIpv6Text s) :
    ∃ r : Reading, r.text = s ∧ ¬IsFlawed r.initFields r.lastField := by
  cases hs with
  | plain a ha =>
    obtain ⟨init, last, rfl, hclean⟩ := ha.exists_fields
    obtain ⟨r, hr, hflaw⟩ := hclean.exists_reading List.not_mem_nil (.inl rfl)
    exact ⟨r, by rw [hr, List.append_nil], hflaw⟩
  | zoned a z ha hz =>
    obtain ⟨init, last, rfl, hclean⟩ := ha.exists_fields
    have hcolon : ':' ∉ '%' :: z := List.not_mem_cons_of_ne_of_not_mem (by decide) hz.2.2
    exact hclean.exists_reading hcolon (.inr ⟨z, rfl, hz⟩)

/-! ## What is accepted -/

/-- A string that is found is an address iff it is not lax. -/
theorem cmdIpv6Match_isIpv6Text_iff (s : CString) :
    (cmdIpv6Match (some s) = .exactMatch → IsIpv6Text s) ↔ ¬IsLax s := by
  constructor
  · rintro h ⟨hchars, hall⟩
    obtain ⟨r, rfl⟩ := exists_reading s
    obtain ⟨hshape, hshort, -⟩ := hall r rfl
    obtain ⟨r', hr', hflaw⟩ := (h ((cmdIpv6Match_text r hchars).2 ⟨hshape, hshort⟩)).exists_reading
    exact hflaw (hall r' hr').2.2
  · intro hlax hexact
    by_contra htext
    have hchars : ∀ c ∈ s, c ∈ ipv6AddrStr := by
      by_contra hchars
      exact cmdIpv6Match_ne_of_chars hchars hexact
    refine hlax ⟨hchars, ?_⟩
    rintro r rfl
    obtain ⟨hshape, hshort⟩ := (cmdIpv6Match_text r hchars).1 hexact
    refine ⟨hshape, hshort, ?_⟩
    by_contra hflaw
    exact htext (Reading.isIpv6Text_of_not hshape hflaw)

/-! ## The mask -/

/-- What the matcher accepts after the slash is a number. -/
theorem isDigits_of_ipv6Mask (hchars : ∀ c ∈ m, c ∈ ipv6PrefixStr)
    (hmask : ipv6Mask m = .exactMatch) : IsDigits m := by
  have hspace : ∀ c ∈ ipv6PrefixStr, ¬isspace c := List.all_iff_forall_prop.1 (by decide)
  refine isDigits_of_strtol (fun c hc => hspace c (hchars c hc))
    (fun h => absurd (hchars _ h) (by decide)) (fun h => absurd (hchars _ h) (by decide)) ?_
  by_contra hend
  rw [ipv6Mask] at hmask
  dsimp only at hmask
  rw [if_pos hend] at hmask
  cases hmask

/-- The masks that are found small enough as an `int`. -/
theorem ipv6Mask_iff (hm : IsDigits m) (hne : m ≠ []) :
    ipv6Mask m = .exactMatch ↔ decimal m < 2 ^ 63 ∧ decimal m % 2 ^ 32 ≤ 128 := by
  have hend : ¬([] : CString) ≠ [] := not_not.2 rfl
  rw [ipv6Mask, strtol_eq_min hm hne]
  dsimp only
  rw [if_neg hend, Int.bmod_def]
  split_ifs <;> simp <;> omega

/-- A mask has no slash, so that a prefix is split in one way only. -/
theorem split_unique_of_digits {a' m' : CString} (hm : IsDigits m) (hm' : IsDigits m')
    (h : a ++ '/' :: m = a' ++ '/' :: m') : a = a' ∧ m = m' := by
  have hslash {m : CString} (hm : IsDigits m) : '/' ∉ m.reverse := by
    rw [List.mem_reverse]
    exact hm.notMem (by decide)
  have hreverse : m.reverse ++ '/' :: a.reverse = m'.reverse ++ '/' :: a'.reverse := by
    simpa using congrArg List.reverse h
  obtain ⟨hm, ha⟩ := split_unique (hslash hm) (hslash hm') hreverse
  exact ⟨List.reverse_injective ha, List.reverse_injective hm⟩

/-- The same for prefixes. -/
theorem cmdIpv6PrefixMatch_isIpv6PrefixText_iff (s : CString) :
    (cmdIpv6PrefixMatch (some s) = .exactMatch → IsIpv6PrefixText s) ↔ ¬IsLaxPrefix s := by
  constructor
  · rintro h ⟨a, m, rfl, ha, hchars, hne, hm, hlt, hmod, hall⟩
    have hmask := (ipv6Mask_iff hm hne).2 ⟨hlt, hmod⟩
    obtain ⟨r, rfl⟩ := exists_reading a
    have hexact := (cmdIpv6PrefixMatch_text r hchars hm hne hmask).2 (hall r rfl).1
    obtain ⟨a', m', heq, htext, -, hm', hval⟩ := h hexact
    -- What is found would be a prefix with the same address and mask, but every reading of that
    -- has a flaw.
    obtain ⟨rfl, rfl⟩ := split_unique_of_digits hm hm' heq
    obtain ⟨r', hr', hflaw⟩ := htext.exists_reading
    exact (hall r' hr').2.elim hflaw (not_lt.2 hval)
  · intro hlax hexact
    by_contra htext
    obtain ⟨hchars, -⟩ := cmdIpv6PrefixMatch_eq_exactMatch hexact
    obtain ⟨a, m, rfl, ha, hne, hmask⟩ := cmdIpv6PrefixMatch_split hexact
    have hchars' : ∀ c ∈ a, c ∈ ipv6AddrStr := by
      by_contra hnot
      exact cmdIpv6PrefixMatch_ne_of_chars ha hnot hexact
    have hm : IsDigits m := isDigits_of_ipv6Mask
      (fun c hc => hchars c (List.mem_append_right a (List.mem_cons_of_mem _ hc))) hmask
    obtain ⟨hlt, hmod⟩ := (ipv6Mask_iff hm hne).1 hmask
    refine hlax ⟨a, m, rfl, ha, hchars', hne, hm, hlt, hmod, ?_⟩
    rintro r rfl
    -- A reading without a flaw, and a mask in bounds, would make a prefix.
    have hprefixed := (cmdIpv6PrefixMatch_text r hchars' hm hne hmask).1 hexact
    refine ⟨hprefixed, ?_⟩
    by_contra hnot
    rw [not_or, not_lt] at hnot
    exact htext ⟨r.text, m, rfl, Reading.isIpv6Text_of_not hprefixed.1 hnot.1, hne, hm, hnot.2⟩

/-- What the scanners accept is an address, or a prefix, unless they overlook a flaw of it. -/
theorem cmdIpv6Match_iff (s : CString) :
    ((cmdIpv6Match (some s) = .exactMatch → IsIpv6Text s) ∧
        (cmdIpv6PrefixMatch (some s) = .exactMatch → IsIpv6PrefixText s)) ↔
      ¬IsLax s ∧ ¬IsLaxPrefix s :=
  and_congr (cmdIpv6Match_isIpv6Text_iff s) (cmdIpv6PrefixMatch_isIpv6PrefixText_iff s)

/-- An IPv6 address has a colon. -/
theorem IsIpv6Text.colon_mem (hs : IsIpv6Text s) : ':' ∈ s := by
  have hipv6 {a : CString} (ha : IsIpv6 a) : ':' ∈ a := by
    cases ha with
    | full gs hgs =>
      have hne : gs ≠ [] := fun h => absurd (hgs.eq_zero h) (by decide)
      obtain ⟨init, last, rfl, -, -, hn⟩ := hgs.exists_concat hne
      have hinit : init ≠ [] := by
        rintro rfl
        rw [List.length_nil] at hn
        split_ifs at hn <;> omega
      rw [joined, Fields.intercalate_concat hinit]
      exact List.mem_append_right _ List.mem_cons_self
    | compressed ls rs n hls hrs hlen =>
      exact List.mem_append_left _ (List.mem_append_right _ List.mem_cons_self)
  cases hs with
  | plain a ha => exact hipv6 ha
  | zoned a z ha hz => exact List.mem_append_left _ (hipv6 ha)

/-- A number is accepted as an address. -/
theorem cmdIpv6Match_accepts : ¬∀ s, cmdIpv6Match (some s) = .exactMatch → IsIpv6Text s :=
  fun h => absurd (h "12".toList (by decide)).colon_mem (by decide)

end Mksh.Ipv6
