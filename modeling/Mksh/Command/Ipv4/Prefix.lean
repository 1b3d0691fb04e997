import Mksh.Command.Ipv4

/-!
# IPv4 prefixes

A prefix is an address, a slash and a number of at most 32 (`IsIpv4Prefix`). The scanner for
prefixes reads numbers between dots and slashes, and the mask after the first slash that
follows three dots (`cmdIpv4PrefixLoop_eq_ok_iff`). It is not quite a recogniser of prefixes:
it goes on after a slash that comes too early, does not look at the length of the first
number, and truncates the mask to an `int` (`Overlooks`). These are all its mistakes
(`cmdIpv4PrefixMatch_iff`).
-/

namespace Mksh.Ipv4Prefix

open CString

/-- An address, and after a slash the length of a prefix. -/
def IsIpv4Prefix (s : CString) : Prop :=
  ∃ a m, s = a ++ '/' :: m ∧ IsIpv4 a ∧ m ≠ [] ∧ IsDigits m ∧ decimal m ≤ 32

/-! ## Fields -/

/-- A number after a dot, or one after a slash, which may be empty. -/
def IsField (f : Char × CString) : Prop :=
  f.1 = '.' ∧ IsOctet f.2 ∨ f.1 = '/' ∧ IsDigits f.2 ∧ IsShort f.2

/-- Fields, each with the character before it. -/
def fieldsText (fs : List (Char × CString)) : CString := fs.flatMap fun f => f.1 :: f.2

/-- What is read of an address after `dots` dots and the characters `buf` of a number: the rest
    of the number and then fields, up to the third dot and the number after it. -/
structure IsWalk (dots : ℕ) (buf g : CString) (fs : List (Char × CString)) : Prop where
  isDigits : IsDigits g
  isShort : IsShort (buf ++ g)
  fields : ∀ f ∈ fs, IsField f
  dots_eq : dots + fs.countP (fun f => f.1 = '.') = 3
  last : ∀ f ∈ fs.getLast?, f.1 = '.'

variable {dots : ℕ} {buf g h m s sp : CString} {c : Char} {fs : List (Char × CString)}

theorem fieldsText_cons (f : Char × CString) (fs : List (Char × CString)) :
    fieldsText (f :: fs) = f.1 :: (f.2 ++ fieldsText fs) := rfl

/-- At the end of the text, three dots are to be behind the walk. -/
theorem isWalk_nil : IsWalk dots buf [] [] ↔ IsShort buf ∧ dots = 3 := by
  constructor
  · intro hw
    exact ⟨by simpa using hw.isShort, hw.dots_eq⟩
  · rintro ⟨hshort, hdots⟩
    exact ⟨List.forall_mem_nil _, by simpa using hshort, List.forall_mem_nil _, hdots, by simp⟩

/-- A digit is added to the number that is being read. -/
theorem isWalk_digit (hc : isdigit c) :
    IsWalk dots buf (c :: g) fs ↔ IsWalk dots (buf ++ [c]) g fs := by
  constructor
  · intro hw
    exact ⟨(List.forall_mem_cons.1 hw.isDigits).2, by simpa using hw.isShort, hw.fields,
      hw.dots_eq, hw.last⟩
  · intro hw
    exact ⟨List.forall_mem_cons.2 ⟨hc, hw.isDigits⟩, by simpa using hw.isShort, hw.fields,
      hw.dots_eq, hw.last⟩

/-- A dot closes a number, and another one has to follow. -/
theorem isWalk_dot : IsWalk dots buf [] (('.', h) :: fs) ↔
    IsShort buf ∧ h ≠ [] ∧ IsWalk (dots + 1) [] h fs := by
  have hcount : dots + (('.', h) :: fs).countP (fun f => f.1 = '.') =
      dots + 1 + fs.countP fun f => f.1 = '.' := by
    rw [List.countP_cons_of_pos (by simp)]
    omega
  constructor
  · intro hw
    obtain ⟨hf, hfields⟩ := List.forall_mem_cons.1 hw.fields
    rcases hf with ⟨-, hne, hdigits, hshort⟩ | ⟨hslash, -⟩
    · refine ⟨by simpa using hw.isShort, hne, hdigits, hshort, hfields, ?_, fun f hf => ?_⟩
      · rw [← hcount]
        exact hw.dots_eq
      · exact hw.last f (List.mem_getLast?_cons hf)
    · exact absurd hslash (show '.' ≠ '/' by decide)
  · rintro ⟨hshort, hne, hw⟩
    refine ⟨List.forall_mem_nil _, by simpa using hshort, List.forall_mem_cons.2
      ⟨.inl ⟨rfl, hne, hw.isDigits, hw.isShort⟩, hw.fields⟩, hcount.trans hw.dots_eq, ?_⟩
    rcases fs with _ | ⟨f, fs⟩
    · simp
    · exact hw.last

/-- A slash that comes too early. -/
theorem isWalk_slash : IsWalk dots buf [] (('/', h) :: fs) ↔
    IsShort buf ∧ dots ≠ 3 ∧ IsWalk dots [] h fs := by
  have hcount : dots + (('/', h) :: fs).countP (fun f => f.1 = '.') =
      dots + fs.countP fun f => f.1 = '.' := by
    rw [List.countP_cons_of_neg (by simp)]
  constructor
  · intro hw
    obtain ⟨hf, hfields⟩ := List.forall_mem_cons.1 hw.fields
    have hdots := hw.dots_eq
    rw [hcount] at hdots
    rcases hf with ⟨hdot, -⟩ | ⟨-, hdigits, hshort⟩
    · exact absurd hdot (show '/' ≠ '.' by decide)
    · rcases fs with _ | ⟨f, fs⟩
      · exact absurd (hw.last _ rfl) (show '/' ≠ '.' by decide)
      · -- The last field is one after a dot.
        have hl := List.getLast?_eq_some_getLast (List.cons_ne_nil f fs)
        have hpos : 0 < (f :: fs).countP fun f => f.1 = '.' :=
          List.countP_pos_iff.2
            ⟨_, List.mem_of_getLast? hl, by simpa using hw.last _ hl⟩
        exact ⟨by simpa using hw.isShort, by omega, hdigits, hshort, hfields, hdots, hw.last⟩
  · rintro ⟨hshort, hne, hw⟩
    refine ⟨List.forall_mem_nil _, by simpa using hshort, List.forall_mem_cons.2
      ⟨.inr ⟨rfl, hw.isDigits, hw.isShort⟩, hw.fields⟩, hcount.trans hw.dots_eq, ?_⟩
    rcases fs with _ | ⟨f, fs⟩
    · exact absurd hw.dots_eq hne
    · exact hw.last

/-! ## The scanner -/

/-- What comes after a number. -/
theorem head?_fieldsText (hfields : ∀ f ∈ fs, IsField f) (m : CString) :
    (fieldsText fs ++ '/' :: m).head? = some '.' ∨
      (fieldsText fs ++ '/' :: m).head? = some '/' := by
  rcases fs with _ | ⟨f, fs⟩
  · exact .inr rfl
  · rw [fieldsText_cons, List.cons_append, List.head?_cons]
    rcases hfields f List.mem_cons_self with ⟨hdot, -⟩ | ⟨hslash, -⟩
    · exact .inl (congrArg some hdot)
    · exact .inr (congrArg some hslash)

/-- The address and the mask that a scan stops at. -/
def Walks (dots : ℕ) (buf str sp : CString) : Prop :=
  sp ≠ [] ∧ ∃ g fs, str = g ++ fieldsText fs ++ '/' :: sp ∧ IsWalk dots buf g fs

/-- A text without a mask is not walked over. -/
theorem walks_nil : ¬Walks dots buf [] sp := by
  rintro ⟨-, g, fs, h, -⟩
  simp at h

/-- A digit is added to the number that is being read. -/
theorem walks_digit (hc : isdigit c) :
    Walks dots buf (c :: s) sp ↔ Walks dots (buf ++ [c]) s sp := by
  obtain ⟨hslash, hdot⟩ := isdigit_ne hc
  refine and_congr_right fun _ => ?_
  constructor
  · rintro ⟨g, fs, h, hw⟩
    rcases g with _ | ⟨d, g⟩
    · have hhead := head?_fieldsText hw.fields sp
      rw [List.nil_append] at h
      rw [← h, List.head?_cons, Option.some.injEq, Option.some.injEq] at hhead
      exact absurd hhead (by simp [hslash, hdot])
    · obtain ⟨rfl, rfl⟩ := List.cons.inj h
      exact ⟨g, fs, rfl, (isWalk_digit hc).1 hw⟩
  · rintro ⟨g, fs, rfl, hw⟩
    exact ⟨c :: g, fs, rfl, (isWalk_digit hc).2 hw⟩

/-- At the end of a number, there is a field, or the mask. -/
theorem walks_cons (hc : ¬isdigit c) : Walks dots buf (c :: s) sp ↔
    sp ≠ [] ∧ ((c = '/' ∧ s = sp ∧ IsWalk dots buf [] []) ∨
      ∃ h fs, s = h ++ fieldsText fs ++ '/' :: sp ∧ IsWalk dots buf [] ((c, h) :: fs)) := by
  refine and_congr_right fun _ => ?_
  constructor
  · rintro ⟨g, fs, h, hw⟩
    rcases g with _ | ⟨d, g⟩
    · rcases fs with _ | ⟨⟨d, k⟩, fs⟩
      · obtain ⟨rfl, rfl⟩ := List.cons.inj h
        exact .inl ⟨rfl, rfl, hw⟩
      · rw [List.nil_append, fieldsText_cons] at h
        obtain ⟨rfl, rfl⟩ := List.cons.inj h
        exact .inr ⟨k, fs, rfl, hw⟩
    · obtain ⟨rfl, -⟩ := List.cons.inj h
      exact absurd (hw.isDigits c List.mem_cons_self) hc
  · rintro (⟨rfl, rfl, hw⟩ | ⟨h, fs, rfl, hw⟩)
    · exact ⟨[], [], rfl, hw⟩
    · exact ⟨[], (c, h) :: fs, rfl, hw⟩

/-- A dot closes the number, unless a dot or a slash is next. -/
theorem walks_dot : Walks dots buf ('.' :: s) sp ↔
    IsShort buf ∧ s.head? ≠ some '.' ∧ s.head? ≠ some '/' ∧ Walks (dots + 1) [] s sp := by
  rw [walks_cons (by decide)]
  constructor
  · rintro ⟨hsp, ⟨h, -⟩ | ⟨h, fs, rfl, hw⟩⟩
    · exact absurd h (by decide)
    · obtain ⟨hshort, hne, hw⟩ := isWalk_dot.1 hw
      obtain ⟨d, h, rfl⟩ := List.exists_cons_of_ne_nil hne
      obtain ⟨hslash, hdot⟩ := isdigit_ne (hw.isDigits d List.mem_cons_self)
      refine ⟨hshort, ?_, ?_, hsp, d :: h, fs, rfl, hw⟩
      · simpa using hdot
      · simpa using hslash
  · rintro ⟨hshort, hdot, hslash, hsp, h, fs, rfl, hw⟩
    refine ⟨hsp, .inr ⟨h, fs, rfl, isWalk_dot.2 ⟨hshort, ?_, hw⟩⟩⟩
    rintro rfl
    exact (head?_fieldsText hw.fields sp).elim hdot hslash

/-- A slash closes the number; it ends the walk after three dots, and else is passed over. -/
theorem walks_slash : Walks dots buf ('/' :: s) sp ↔
    IsShort buf ∧ if dots = 3 then s = sp ∧ sp ≠ [] else Walks dots [] s sp := by
  rw [walks_cons (by decide)]
  constructor
  · rintro ⟨hsp, ⟨-, rfl, hw⟩ | ⟨h, fs, rfl, hw⟩⟩
    · obtain ⟨hshort, hdots⟩ := isWalk_nil.1 hw
      rw [if_pos hdots]
      exact ⟨hshort, rfl, hsp⟩
    · obtain ⟨hshort, hdots, hw⟩ := isWalk_slash.1 hw
      rw [if_neg hdots]
      exact ⟨hshort, hsp, h, fs, rfl, hw⟩
  · rintro ⟨hshort, h⟩
    split_ifs at h with hdots
    · exact ⟨h.2, .inl ⟨rfl, h.1, isWalk_nil.2 ⟨hshort, hdots⟩⟩⟩
    · obtain ⟨hsp, g, fs, rfl, hw⟩ := h
      exact ⟨hsp, .inr ⟨g, fs, rfl, isWalk_slash.2 ⟨hshort, hdots, hw⟩⟩⟩

/-- No field starts with another character. -/
theorem not_walks_cons (hdigit : ¬isdigit c) (hdot : c ≠ '.') (hslash : c ≠ '/') :
    ¬Walks dots buf (c :: s) sp := by
  rw [walks_cons hdigit]
  rintro ⟨-, ⟨h, -⟩ | ⟨h, fs, -, hw⟩⟩
  · exact hslash h
  · rcases hw.fields _ List.mem_cons_self with ⟨h, -⟩ | ⟨h, -⟩
    · exact hdot h
    · exact hslash h

/-- The two tests of a number. -/
theorem ite_isShort {α : Type*} (hbuf : IsDigits buf) (x y : α) :
    (if buf.length > 3 then x else if atoi buf > 255 then x else y) =
      if IsShort buf then y else x := by
  simp only [isShort_iff hbuf]
  split_ifs <;> first | rfl | omega

/-- Where the scanner stops. -/
theorem cmdIpv4PrefixLoop_eq_ok_iff (hbuf : IsDigits buf) (hdots : dots ≤ 3) :
    cmdIpv4PrefixLoop dots buf s = .ok sp ↔ Walks dots buf s sp := by
  induction s generalizing dots buf with
  | nil =>
    refine iff_of_false ?_ walks_nil
    rw [cmdIpv4PrefixLoop]
    split_ifs <;> simp
  | cons c s ih =>
    rw [cmdIpv4PrefixLoop]
    by_cases hdigit : isdigit c
    · obtain ⟨hslash, hdot⟩ := isdigit_ne hdigit
      rw [if_neg hslash, if_neg hdot, if_neg (by simp [hdigit]), walks_digit hdigit]
      exact ih (List.forall_mem_append.2 ⟨hbuf, List.forall_mem_singleton.2 hdigit⟩) hdots
    have hnil : IsDigits [] := List.forall_mem_nil _
    rcases eq_or_ne c '/' with rfl | hslash
    · rw [if_pos rfl, walks_slash, ite_isShort hbuf]
      by_cases hshort : IsShort buf
      · rw [if_pos hshort, and_iff_right hshort]
        split_ifs with hthree hs
        · refine iff_of_false (by simp) ?_
          rintro ⟨rfl, hne⟩
          exact hne hs
        · rw [Except.ok.injEq]
          exact ⟨fun h => ⟨h, h ▸ hs⟩, And.left⟩
        · exact ih hnil hdots
      · rw [if_neg hshort]
        exact iff_of_false (by simp) fun h => hshort h.1
    rcases eq_or_ne c '.' with rfl | hdot
    · rw [if_neg hslash, if_pos rfl, walks_dot]
      by_cases hthree : dots = 3
      · -- A fourth dot.
        rw [if_pos hthree]
        refine iff_of_false (by simp) ?_
        rintro ⟨-, -, -, -, g, fs, -, hw⟩
        have hfour := hw.dots_eq
        omega
      rw [if_neg hthree, ite_isShort hbuf]
      by_cases hhead : s.head? = some '.' ∨ s.head? = some '/'
      · rw [if_pos hhead]
        exact iff_of_false (by simp) fun h => hhead.elim h.2.1 h.2.2.1
      rw [if_neg hhead]
      rw [not_or] at hhead
      split_ifs with hs hshort
      · rw [hs]
        exact iff_of_false (by simp) fun h => walks_nil h.2.2.2
      · rw [ih hnil (by omega), and_iff_right hshort, and_iff_right hhead.1,
          and_iff_right hhead.2]
      · exact iff_of_false (by simp) fun h => hshort h.1
    · rw [if_neg hslash, if_neg hdot, if_pos (by simp [hdigit])]
      exact iff_of_false (by simp) (not_walks_cons hdigit hdot hslash)

/-- The mask at which a walk ends is determined by the text. -/
theorem Walks.unique {sp' : CString} (h : Walks 0 [] s sp) (h' : Walks 0 [] s sp') : sp' = sp := by
  have hnil : IsDigits [] := List.forall_mem_nil _
  have hok := (cmdIpv4PrefixLoop_eq_ok_iff hnil (Nat.zero_le 3)).2 h
  rw [(cmdIpv4PrefixLoop_eq_ok_iff hnil (Nat.zero_le 3)).2 h'] at hok
  exact Except.ok.inj hok

/-- What the scanner takes for a prefix. -/
theorem cmdIpv4PrefixMatch_eq_exactMatch : cmdIpv4PrefixMatch (some s) = .exactMatch ↔
    ∃ m, Walks 0 [] s m ∧ IsDigits m ∧ atoi m ≤ 32 := by
  have hwalks (m : CString) : cmdIpv4PrefixLoop 0 [] s = .ok m ↔ Walks 0 [] s m :=
    cmdIpv4PrefixLoop_eq_ok_iff (List.forall_mem_nil _) (Nat.zero_le 3)
  rw [cmdIpv4PrefixMatch]
  rcases hloop : cmdIpv4PrefixLoop 0 [] s with ret | m
  · refine iff_of_false ?_ ?_
    · rintro rfl
      exact cmdIpv4PrefixLoop_ne_exactMatch _ _ _ hloop
    · rintro ⟨m, hm, -⟩
      rw [(hwalks m).2 hm] at hloop
      cases hloop
  · have hm := (hwalks m).1 hloop
    dsimp only
    -- The walk ends at one mask only, so that the checks are made on it.
    split_ifs with hdigits hmask
    · refine iff_of_false (by decide) ?_
      rintro ⟨m', hm', hall, -⟩
      rw [hm.unique hm'] at hall
      simp [List.all_eq_true.2 hall] at hdigits
    · refine iff_of_false (by decide) ?_
      rintro ⟨m', hm', -, hle⟩
      rw [hm.unique hm'] at hle
      omega
    · refine iff_of_true rfl ⟨m, hm, List.all_eq_true.1 ?_, by omega⟩
      simpa using hdigits

/-! ## Prefixes -/

/-- What the scanner takes for a prefix, and is none: the first number is empty, a slash stands
    before the third dot, or the mask is too large. -/
def Overlooks (s : CString) : Prop :=
  ∃ g fs m, s = g ++ fieldsText fs ++ '/' :: m ∧ IsWalk 0 [] g fs ∧ m ≠ [] ∧ IsDigits m ∧
    atoi m ≤ 32 ∧ (g = [] ∨ '/' ∈ fs.map Prod.fst ∨ 32 < decimal m)

/-- The text of an address as fields behind dots. -/
theorem intercalate_eq (g : CString) (gs : List CString) :
    ['.'].intercalate (g :: gs) = g ++ fieldsText (gs.map fun h => ('.', h)) := by
  induction gs generalizing g with
  | nil => simp [fieldsText]
  | cons h gs ih => rw [Fields.intercalate_cons, ih, List.map_cons, fieldsText_cons]

/-- A slash in the text of a walk is one that it passes over. -/
theorem IsWalk.slash_mem_iff (hw : IsWalk dots buf g fs) :
    '/' ∈ g ++ fieldsText fs ↔ '/' ∈ fs.map Prod.fst := by
  have hnot {h : CString} (hh : IsDigits h) : '/' ∉ h := hh.notMem (by decide)
  rw [List.mem_append, or_iff_right (hnot hw.isDigits), fieldsText, List.mem_flatMap,
    List.mem_map]
  refine exists_congr fun f => and_congr_right fun hf => ?_
  have hh : IsDigits f.2 := by
    rcases hw.fields f hf with ⟨-, h⟩ | ⟨-, h⟩
    · exact h.2.1
    · exact h.1
  rw [List.mem_cons, or_iff_left (hnot hh), eq_comm]

/-- A prefix is what is read without any of the mistakes. -/
theorem isIpv4Prefix_iff : IsIpv4Prefix s ↔
    ∃ g fs m, s = g ++ fieldsText fs ++ '/' :: m ∧ IsWalk 0 [] g fs ∧ m ≠ [] ∧ IsDigits m ∧
      decimal m ≤ 32 ∧ g ≠ [] ∧ '/' ∉ fs.map Prod.fst := by
  constructor
  · rintro ⟨_, m, rfl, ⟨gs, hlen, hgs, rfl⟩, hne, hm, hval⟩
    rcases gs with _ | ⟨g, gs⟩
    · cases hlen
    obtain ⟨⟨hg, hdigits, hshort⟩, hgs⟩ := List.forall_mem_cons.1 hgs
    rw [List.length_cons] at hlen
    refine ⟨g, gs.map fun h => ('.', h), m, by rw [intercalate_eq],
      ⟨hdigits, hshort, ?_, ?_, ?_⟩, hne, hm, hval, hg, ?_⟩
    · exact List.forall_mem_map.2 fun h hh => .inl ⟨rfl, hgs h hh⟩
    · rw [List.countP_eq_length.2 (List.forall_mem_map.2 fun h _ => by simp), List.length_map]
      omega
    · intro f hf
      obtain ⟨h, -, rfl⟩ := List.mem_map.1 (List.mem_of_getLast? hf)
      rfl
    · simp
  · rintro ⟨g, fs, m, rfl, hw, hne, hm, hval, hg, hslash⟩
    -- No slash is passed over, so that all fields are behind dots.
    have hdot : ∀ f ∈ fs, f.1 = '.' ∧ IsOctet f.2 := fun f hf =>
      (hw.fields f hf).resolve_right fun h => hslash (List.mem_map.2 ⟨f, hf, h.1⟩)
    have hfs : (fs.map Prod.snd).map (fun h => ('.', h)) = fs := by
      rw [List.map_map]
      refine (List.map_congr_left fun f hf => ?_).trans (List.map_id fs)
      exact Prod.ext (hdot f hf).1.symm rfl
    have hlen := hw.dots_eq
    rw [List.countP_eq_length.2 fun f hf => by simpa using (hdot f hf).1] at hlen
    refine ⟨_, m, rfl, ⟨g :: fs.map Prod.snd, ?_, ?_, ?_⟩, hne, hm, hval⟩
    · rw [List.length_cons, List.length_map]
      omega
    · exact List.forall_mem_cons.2 ⟨⟨hg, hw.isDigits, hw.isShort⟩,
        List.forall_mem_map.2 fun f hf => (hdot f hf).2⟩
    · rw [intercalate_eq, hfs]

/-- When the scanner recognises a prefix. -/
theorem cmdIpv4PrefixMatch_iff (s : CString) :
    (cmdIpv4PrefixMatch (some s) = .exactMatch ↔ IsIpv4Prefix s) ↔ ¬Overlooks s := by
  rw [cmdIpv4PrefixMatch_eq_exactMatch, isIpv4Prefix_iff]
  constructor
  · rintro hiff ⟨g, fs, m, rfl, hw, hne, hm, hatoi, hbad⟩
    have hwalks : Walks 0 [] (g ++ fieldsText fs ++ '/' :: m) m := ⟨hne, g, fs, rfl, hw⟩
    obtain ⟨g', fs', m', heq, hw', hne', -, hval, hg', hslash⟩ := hiff.1 ⟨m, hwalks, hm, hatoi⟩
    obtain rfl := hwalks.unique ⟨hne', g', fs', heq, hw'⟩
    have htext := List.append_cancel_right heq
    rcases hbad with rfl | hmem | hlt
    · -- A field does not start with a digit.
      obtain ⟨c, t, rfl⟩ := List.exists_cons_of_ne_nil hg'
      have hc := isdigit_ne (hw'.isDigits c List.mem_cons_self)
      have hhead := head?_fieldsText hw.fields m'
      rw [List.nil_append] at htext
      rw [htext] at hhead
      simp [hc] at hhead
    · rw [← hw'.slash_mem_iff, ← htext, hw.slash_mem_iff] at hslash
      exact hslash hmem
    · omega
  · intro hnot
    constructor
    · rintro ⟨m, ⟨hne, g, fs, rfl, hw⟩, hm, hatoi⟩
      have hgood : ¬(g = [] ∨ '/' ∈ fs.map Prod.fst ∨ 32 < decimal m) := fun hbad =>
        hnot ⟨g, fs, m, rfl, hw, hne, hm, hatoi, hbad⟩
      rw [not_or, not_or, not_lt] at hgood
      exact ⟨g, fs, m, rfl, hw, hne, hm, hgood.2.2, hgood.1, hgood.2.1⟩
    · rintro ⟨g, fs, m, rfl, hw, hne, hm, hval, -, -⟩
      refine ⟨m, ⟨hne, g, fs, rfl, hw⟩, hm, ?_⟩
      rw [atoi_eq_decimal hm (by omega)]
      omega

/-- The scanner goes on after a slash. -/
theorem cmdIpv4PrefixMatch_overlooks : ¬∀ s,
    (cmdIpv4PrefixMatch (some s) = .exactMatch ↔ IsIpv4Prefix s) := by
  intro h
  refine (cmdIpv4PrefixMatch_iff _).1 (h "1/2.3.4.5/24".toList) ⟨['1'],
    [('/', ['2']), ('.', ['3']), ('.', ['4']), ('.', ['5'])], ['2', '4'], by decide,
    ⟨by decide, by decide, ?_, by decide, by simp⟩, by decide, by decide, by decide,
    .inr (.inl (by decide))⟩
  simp only [List.forall_mem_cons]
  refine ⟨.inr ⟨rfl, by decide, by decide⟩, ?_, ?_, ?_, List.forall_mem_nil _⟩
  · exact .inl ⟨rfl, by decide, by decide, by decide⟩
  · exact .inl ⟨rfl, by decide, by decide, by decide⟩
  · exact .inl ⟨rfl, by decide, by decide, by decide⟩

end Mksh.Ipv4Prefix
