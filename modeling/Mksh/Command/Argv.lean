import Mathlib.Data.List.Count
import Mksh.Command.Select

/-!
# Arguments

The arguments a handler receives are the words at the consuming positions of
its element (`consumed`): those of the items that are not a lone keyword, and
all those from a lone vararg on.

* `cmdArgLoop_eq`: the loop collects these words, and refuses `cmdArgcMax` of
  them or more;
* `argvSpec_of_varargLast`: for both executors, in a node whose varargs stand
  alone in the last item, it never leaves an array, and there are as many
  arguments as there are consuming items among the mandatory ones;
* `cmdExecuteCommand_canonical_iff`: for a group of keywords, the argument is
  the word as it was typed. It is the keyword that the word selected if and
  only if the word is spelled out.
-/

namespace Mksh

open CString Elimination

variable {F : Type*} {cls : CString → CString → MatchType} {table : List (CmdElement F)}
  {vline : List CString} {e : CmdElement F} {strvec : List (List Desc)}

/-! ## Consuming positions -/

/-- The item is a lone vararg. -/
def varargItem : List Desc → Bool
  | [desc] => cmdVararg desc.cmd
  | _ => false

/-- The word of the item is an argument: the item has alternatives to choose
    from, or a single one, which is an option or a variable (so are ranges and
    addresses). -/
def consumingItem : List Desc → Bool
  | [desc] => cmdOption desc.cmd || cmdVariable desc.cmd
  | _ => true

/-- The word at `i` is an argument. -/
def consuming (strvec : List (List Desc)) (i : ℕ) : Bool :=
  (strvec.take (i + 1)).any varargItem || strvec[i]?.any consumingItem

/-- The words of `vline`, the first of which is at `i`, at consuming positions. -/
def consumed (strvec : List (List Desc)) : ℕ → List CString → List CString
  | _, [] => []
  | i, word :: vline =>
    if consuming strvec i then word :: consumed strvec (i + 1) vline
    else consumed strvec (i + 1) vline

/-- Where the argument for the word at `i` is. -/
def argIndex (strvec : List (List Desc)) (i : ℕ) : ℕ := (List.range i).countP (consuming strvec)

/-- What a longer line consumes is what its parts consume, the second one shifted. -/
theorem consumed_append (i : ℕ) (ws ws' : List CString) : consumed strvec i (ws ++ ws') =
    consumed strvec i ws ++ consumed strvec (i + ws.length) ws' := by
  induction ws generalizing i with
  | nil => rfl
  | cons w ws ih =>
    rw [List.cons_append, consumed, consumed, ih, List.length_cons, Nat.add_assoc, Nat.add_comm 1]
    split_ifs <;> rfl

/-- As many words are consumed as items before the position consume one. -/
theorem length_consumed (ws : List CString) :
    (consumed strvec 0 ws).length = argIndex strvec ws.length := by
  induction ws using List.reverseRecOn with
  | nil => rfl
  | append_singleton ws w ih =>
    rw [consumed_append, List.length_append, ih, List.length_append, List.length_singleton,
      argIndex, argIndex, List.range_succ, List.countP_append, Nat.zero_add, consumed]
    by_cases hc : consuming strvec ws.length
    · simp [hc, consumed]
    · simp [hc, consumed]

/-- The argument for a word at a consuming position is the word. -/
theorem consumed_getElem? {i : ℕ} {w : CString} (hw : vline[i]? = some w)
    (hc : consuming strvec i) : (consumed strvec 0 vline)[argIndex strvec i]? = some w := by
  obtain ⟨hi, rfl⟩ := List.getElem?_eq_some_iff.1 hw
  have hlen : (vline.take i).length = i := List.length_take_of_le hi.le
  conv_lhs => rw [← List.take_append_drop i vline, consumed_append, hlen, Nat.zero_add]
  rw [List.getElem?_append_right (by rw [length_consumed, hlen]), length_consumed, hlen,
    Nat.sub_self, List.drop_eq_getElem_cons hi, consumed, if_pos hc]
  rfl

/-- A later position has at least as many arguments before it. -/
theorem argIndex_mono {i j : ℕ} (h : i ≤ j) : argIndex strvec i ≤ argIndex strvec j :=
  (List.range_sublist.2 h).countP_le

/-- The items whose words are arguments are at consuming positions. -/
theorem countP_take_le_argIndex (strvec : List (List Desc)) (k : ℕ) :
    (strvec.take k).countP (fun item => consumingItem item || varargItem item) ≤
      argIndex strvec k := by
  induction k with
  | zero => exact le_rfl
  | succ k ih =>
    rw [List.take_add_one, List.countP_append, argIndex, List.range_succ, List.countP_append]
    refine Nat.add_le_add ih ?_
    rcases hk : strvec[k]? with _ | item
    · exact Nat.zero_le _
    by_cases hp : consumingItem item || varargItem item
    · -- A vararg makes its own position consuming.
      have hc : consuming strvec k := by
        rw [consuming, List.take_add_one, hk]
        simp only [Option.toList_some, List.any_append, List.any_cons, List.any_nil,
          Option.any_some, Bool.or_eq_true] at hp ⊢
        tauto
      simp [hp, hc]
    · simp [hp]

/-! ## The loop -/

/-- The item of a word, in terms of consuming positions. -/
theorem argItem_eq {i : ℕ} (h : i < strvec.length ∨ (strvec.take i).any varargItem) :
    argItem strvec i ((strvec.take i).any varargItem) =
      some (consuming strvec i, (strvec.take (i + 1)).any varargItem) := by
  rw [argItem, consuming, List.take_add_one, List.any_append]
  by_cases hv : (strvec.take i).any varargItem
  · simp [hv]
  · obtain hi := h.resolve_right hv
    rw [if_neg hv, List.getElem?_eq_getElem hi]
    rcases strvec[i] with _ | ⟨d, _ | ⟨d', item⟩⟩
    · simp [hv, varargItem, consumingItem]
    · simp [hv, varargItem, consumingItem, Bool.or_assoc, Bool.or_comm (cmdVariable d.cmd)]
    · simp [hv, varargItem, consumingItem]

/-- The loop collects the words at consuming positions, if they are not too many. -/
theorem cmdArgLoop_eq (vline : List CString) (i : ℕ) (argv : List CString)
    (hargv : argv.length < cmdArgcMax)
    (h : ∀ j < i + vline.length, j < strvec.length ∨ (strvec.take j).any varargItem) :
    cmdArgLoop strvec vline i ((strvec.take i).any varargItem) argv =
      if (argv ++ consumed strvec i vline).length < cmdArgcMax then
        .ok (argv ++ consumed strvec i vline)
      else .error cmdErrExeedArgcMax := by
  induction vline generalizing i argv with
  | nil => simp [cmdArgLoop, consumed, hargv]
  | cons w vline ih =>
    have hi := h i (by simp)
    have hrec : ∀ j < i + 1 + vline.length, j < strvec.length ∨ (strvec.take j).any varargItem :=
      fun j hj => h j (by rw [List.length_cons]; omega)
    rw [cmdArgLoop, argItem_eq hi, consumed]
    dsimp only
    by_cases hc : consuming strvec i
    · rw [if_neg (by simp [hargv]), if_pos hc, if_pos hc]
      have hcons : argv ++ w :: consumed strvec (i + 1) vline =
          argv ++ [w] ++ consumed strvec (i + 1) vline := by simp
      rw [hcons]
      by_cases hlt : (argv ++ [w]).length < cmdArgcMax
      · rw [if_neg (by omega), ih (i + 1) (argv ++ [w]) hlt hrec]
      · -- The last argument there is room for, or one more.
        rw [if_pos (by omega), if_neg (by rw [List.length_append]; omega)]
    · rw [if_neg (by simp [hc]), if_neg hc, if_neg (by simpa [hc] using hargv), if_neg hc]
      exact ih (i + 1) argv hargv hrec

/-- Without the bounds, that is what the loop has collected when it succeeds. -/
theorem cmdArgLoop_ok {vline argv argv' : List CString} {i : ℕ}
    (h : cmdArgLoop strvec vline i ((strvec.take i).any varargItem) argv = .ok argv') :
    argv' = argv ++ consumed strvec i vline := by
  induction vline generalizing i argv with
  | nil =>
    rw [consumed, List.append_nil]
    exact (ArgResult.ok.inj h).symm
  | cons w vline ih =>
    rw [cmdArgLoop] at h
    by_cases hi : i < strvec.length ∨ (strvec.take i).any varargItem
    · rw [argItem_eq hi] at h
      dsimp only at h
      rw [consumed]
      split_ifs at h ⊢ with h₁ h₂ h₃ h₃
      · rw [ih h, List.append_assoc, List.singleton_append]
      · exact ih h
    · -- There is no item to read.
      rw [not_or, Nat.not_lt] at hi
      rw [argItem, if_neg hi.2, List.getElem?_eq_none hi.1] at h
      cases h

/-! ## The arguments of the element selected -/

/-- A vararg stands alone, in the last item. -/
def VarargLast (e : CmdElement F) : Prop :=
  ∀ i, ∀ d ∈ e.item i, cmdVararg d.cmd → e.item i = [d] ∧ i + 1 = e.strvec.length

/-- A vararg item has one alternative and nothing behind it. -/
theorem varargLast_iff : VarargLast e ↔ ∀ i < e.strvec.length, ∀ d ∈ e.item i, cmdVararg d.cmd →
    e.item i = [d] ∧ i + 1 = e.strvec.length := by
  refine ⟨fun h i _ => h i, fun h i d hd => h i ?_ d hd⟩
  by_contra hge
  rw [CmdElement.item, List.getElem?_eq_none (by omega)] at hd
  exact absurd hd List.not_mem_nil

instance : DecidablePred (VarargLast (F := F)) := fun _ => decidable_of_iff _ varargLast_iff.symm

/-- What an executor does about the arguments of `vline`. -/
structure ArgvSpec (filter : Filter F) (table : List (CmdElement F)) (vline : List CString) :
    Prop where
  no_fault : ∀ f, cmdExecuteWith filter table vline ≠ .fault f
  /-- The handler gets the words at consuming positions, at most `cmdArgcMax - 1`
      of them, and one at least for each mandatory item that takes an argument. -/
  selects : ∀ e argv, (cmdExecuteWith filter table vline).Selects e argv →
    argv = consumed e.strvec 0 vline ∧ argv.length ≤ cmdArgcMax - 1 ∧
    (e.strvec.take e.cmdsize).countP (fun item => consumingItem item || varargItem item) ≤
      argv.length
  /-- With more arguments, no handler is called. -/
  exceeds : ∀ e, cmdFindElement filter table vline = .ok e →
    cmdArgcMax ≤ (consumed e.strvec 0 vline).length →
    cmdExecuteWith filter table vline = .returns cmdErrExeedArgcMax

namespace MatchEnd

variable {index : ℕ} {type : MatchType} {v : CmdVector F}

/-- What the rounds select is an element of the table. -/
theorem mem_table (h : MatchEnd cls table vline e index type v) : e ∈ table := by
  obtain ⟨l₁, l₂, rfl, -⟩ := h.others
  exact List.mem_append_right l₁ List.mem_cons_self

/-- Where the loop breaks, there is the last item, a lone vararg. -/
theorem item_of_vararg (h : MatchEnd cls table vline e index .varargMatch v)
    (hcls : Classifies cls) (hvar : VarargLast e) :
    varargItem (e.item index) ∧ index + 1 = e.strvec.length ∧ index < vline.length := by
  obtain ⟨w, hw, hc⟩ := h.exists_vararg
  obtain ⟨d, hd, hdc⟩ := exists_cls_of_classAt (hc.trans_ne (by decide))
  have hv : cmdVararg d.cmd := hcls.vararg.1 (hdc.trans hc)
  obtain ⟨hitem, hlen⟩ := hvar index d hd hv
  refine ⟨?_, hlen, (List.getElem?_eq_some_iff.1 hw).1⟩
  rw [hitem]
  exact hv

/-- Each word has an item, or follows a vararg. -/
theorem item_or_vararg (h : MatchEnd cls table vline e index type v) (hcls : Classifies cls)
    (hvar : VarargLast e) {j : ℕ} (hj : j < vline.length) :
    j < e.strvec.length ∨ (e.strvec.take j).any varargItem := by
  have hle := h.index_le
  by_cases htype : type = .varargMatch
  · subst htype
    obtain ⟨hitem, hlen, -⟩ := h.item_of_vararg hcls hvar
    rcases Nat.lt_or_ge j e.strvec.length with hlt | hge
    · exact .inl hlt
    · refine .inr (List.any_eq_true.2 ⟨e.item index, ?_, hitem⟩)
      rw [List.take_of_length_le hge, CmdElement.item, List.getElem?_eq_getElem (by omega)]
      exact List.getElem_mem _
  · obtain ⟨-, hi, -⟩ := h.select.resolve_left fun hs => htype hs.1
    exact .inl (by omega)

/-- There is a word for each mandatory item. -/
theorem cmdsize_le (h : MatchEnd cls table vline e index type v) (hcls : Classifies cls)
    (hvar : VarargLast e) : (e.strvec.take e.cmdsize).length ≤ vline.length := by
  rw [List.length_take]
  by_cases htype : type = .varargMatch
  · subst htype
    obtain ⟨-, hlen, hlt⟩ := h.item_of_vararg hcls hvar
    omega
  · obtain ⟨-, -, -, hl⟩ := h.select.resolve_left fun hs => htype hs.1
    have hsize : vline.length ≥ e.cmdsize := by simpa using (filter_eq_singleton hl).1
    omega

end MatchEnd

/-- Every argument is a word of the line. -/
theorem mem_of_mem_consumed {w : CString} {i : ℕ} (h : w ∈ consumed strvec i vline) :
    w ∈ vline := by
  induction vline generalizing i with
  | nil => exact absurd h List.not_mem_nil
  | cons w' vline ih =>
    rw [consumed] at h
    split_ifs at h
    · rcases List.mem_cons.1 h with rfl | h
      · exact List.mem_cons_self
      · exact List.mem_cons_of_mem _ (ih h)
    · exact List.mem_cons_of_mem _ (ih h)

/-- The element selected is one of the vector, and its arguments are words of the line. -/
theorem mem_of_selects {argv : List CString}
    (h : (cmdExecuteWith (filterBy cls) table vline).Selects e argv) :
    e ∈ table ∧ ∀ w ∈ argv, w ∈ vline := by
  obtain ⟨hf, hargv⟩ := cmdExecuteWith_selects.1 h
  obtain ⟨_, _, _, hend⟩ := exists_matchEnd hf
  refine ⟨hend.mem_table, fun w hw => ?_⟩
  rw [cmdArgLoop_ok (i := 0) hargv, List.nil_append] at hw
  exact mem_of_mem_consumed hw

/-- Any executor whose filter classifies words meets the specification of `argv`. -/
theorem argvSpec_of_classifies (hcls : Classifies cls) (hvar : ∀ e ∈ table, VarargLast e)
    (vline : List CString) : ArgvSpec (filterBy cls) table vline := by
  -- The loop, for the element selected.
  have hloop : ∀ e, cmdFindElement (filterBy cls) table vline = .ok e →
      (e.strvec.take e.cmdsize).length ≤ vline.length ∧
      cmdArgLoop e.strvec vline 0 false [] =
        if (consumed e.strvec 0 vline).length < cmdArgcMax then .ok (consumed e.strvec 0 vline)
        else .error cmdErrExeedArgcMax := by
    intro e he
    obtain ⟨index, type, v, hend⟩ := exists_matchEnd he
    have hve := hvar e hend.mem_table
    refine ⟨hend.cmdsize_le hcls hve, ?_⟩
    exact cmdArgLoop_eq vline 0 [] (by decide) fun j hj =>
      hend.item_or_vararg hcls hve (by omega)
  constructor
  · intro f
    rw [cmdExecuteWith]
    cases he : cmdFindElement (filterBy cls) table vline with
    | error ret => simp
    | ok e =>
      dsimp only
      rw [cmdCallElement, (hloop e he).2]
      split_ifs <;> simp
  · intro e argv h
    obtain ⟨he, harg⟩ := cmdExecuteWith_selects.1 h
    obtain ⟨hsize, heq⟩ := hloop e he
    rw [heq] at harg
    split_ifs at harg with hlt
    obtain rfl := ArgResult.ok.inj harg
    refine ⟨rfl, by omega, ?_⟩
    -- A position consumes for each mandatory item, and there is a word at each.
    calc (e.strvec.take e.cmdsize).countP (fun item => consumingItem item || varargItem item)
        = (e.strvec.take (e.strvec.take e.cmdsize).length).countP
            (fun item => consumingItem item || varargItem item) := by
          rw [List.length_take, ← List.take_eq_take_min]
      _ ≤ argIndex e.strvec (e.strvec.take e.cmdsize).length := countP_take_le_argIndex _ _
      _ ≤ argIndex e.strvec vline.length := argIndex_mono hsize
      _ = (consumed e.strvec 0 vline).length := (length_consumed vline).symm
  · intro e he hlen
    rw [cmdExecuteWith, he]
    dsimp only
    rw [cmdCallElement, (hloop e he).2, if_neg (by omega)]

/-- Provenance and arity of the arguments, for both executors. -/
theorem argvSpec_of_varargLast (hvar : ∀ e ∈ table, VarargLast e) (vline : List CString) :
    ArgvSpec cmdFilterByCompletion table vline ∧ ArgvSpec cmdFilterByString table vline :=
  ⟨argvSpec_of_classifies completionClass_classifies hvar vline,
    argvSpec_of_classifies stringClass_classifies hvar vline⟩

/-- The `make` line with three words after the keyword, through both executors. -/
theorem argvSpec_of_varargLast_make :
    ArgvSpec cmdFilterByCompletion projectNode (words ["make", "-C", "dir", "all"]) ∧
      ArgvSpec cmdFilterByString projectNode (words ["make", "-C", "dir", "all"]) :=
  argvSpec_of_varargLast (by decide +kernel) _

/-! ## Groups of keywords -/

/-- A choice between two keywords or more. -/
def IsGroup (item : List Desc) : Prop := 2 ≤ item.length ∧ ∀ d ∈ item, IsKeyword d.cmd

instance : DecidablePred IsGroup := fun item =>
  inferInstanceAs (Decidable (2 ≤ item.length ∧ ∀ d ∈ item, IsKeyword d.cmd))

/-- The word is a keyword of the item, spelled out. -/
def IsSpelledOut (w : CString) (item : List Desc) : Prop := ∃ d ∈ item, d.cmd = w

/-- The keyword of the group that the word selects: the word itself if it is one
    of them, and else one it abbreviates. -/
def SelectsKeyword (w : CString) (item : List Desc) (keyword : CString) : Prop :=
  IsSpelledOut keyword item ∧ w <+: keyword ∧ (IsSpelledOut w item → keyword = w)

/-- The word at a group of keywords is handed over. -/
theorem consuming_of_isGroup {i : ℕ} (h : IsGroup (e.item i)) : consuming e.strvec i := by
  rw [consuming, Bool.or_eq_true]
  refine .inr ?_
  rw [CmdElement.item] at h
  rcases hi : e.strvec[i]? with _ | _ | ⟨d, _ | ⟨d', item⟩⟩
  · rw [hi] at h
    exact absurd h.1 (by decide)
  · rfl
  · rw [hi] at h
    exact absurd h.1 (by simp)
  · rfl

/-- In a round that keeps `e`, the word selects one keyword of a group of `e`. -/
theorem existsUnique_selectsKeyword {w : CString} {i : ℕ} {l : List (CmdElement F)}
    (hh : ¬(cmdRound completionClass w i).halts l)
    (hf : (cmdRound completionClass w i).fail l = none) (he : e ∈ l)
    (hk : (cmdRound completionClass w i).keep l e) (hg : IsGroup (e.item i)) :
    ∃! keyword, SelectsKeyword w (e.item i) keyword := by
  have hne := (keep_iff.1 hk).1
  by_cases hw : IsSpelledOut w (e.item i)
  · exact ⟨w, ⟨hw, List.prefix_refl w, fun _ => rfl⟩, fun k hsel => hsel.2.2 hw⟩
  -- The keywords with the prefix `w` hit, and they must be the same.
  have hpartly {d : Desc} (hd : d ∈ e.item i) (hwd : w <+: d.cmd) :
      completionClass w d.cmd = .partlyMatch := by
    rw [completionClass_of_isKeyword (hg.2 d hd), if_pos hwd,
      if_neg fun heq => hw ⟨d, hd, heq.symm⟩]
  obtain ⟨d, hd, hdc⟩ := exists_cls_of_classAt hne
  have hwd : w <+: d.cmd := by
    by_contra hwd
    refine hne (hdc.symm.trans ?_)
    rw [completionClass_of_isKeyword (hg.2 d hd), if_neg hwd]
  have hclass : classAt (completionClass w) i e = .partlyMatch := hdc ▸ hpartly hd hwd
  have hle : .partlyMatch ≤ topClass completionClass w i l := hclass ▸ classAt_le_topClass he
  have hp : ¬IsPrefixClass (topClass completionClass w i l) := by
    rintro (ht | ht)
    · exact absurd (ht ▸ hle) (by decide)
    · exact absurd (ht ▸ hle) (by decide)
  have htop : topClass completionClass w i l = .partlyMatch :=
    ((classAt_of_keep completionClass_classifies hh hf he hk).resolve_right hp).symm.trans hclass
  have hhit {d' : Desc} (hd' : d' ∈ e.item i) (hwd' : w <+: d'.cmd) :
      d'.cmd ∈ liveHits w (topClass completionClass w i l) i (matching completionClass w i l) := by
    refine mem_liveHits.2 ⟨e, List.mem_filter.2 ⟨he, by simpa using hne⟩, ⟨d', hd', rfl⟩, ?_⟩
    rw [htop]
    exact completionClass_classifies.hit (hpartly hd' hwd') (by decide) (by decide)
  refine ⟨d.cmd, ⟨⟨d, hd, rfl⟩, hwd, fun hs => absurd hs hw⟩, ?_⟩
  rintro k ⟨⟨d', hd', rfl⟩, hwd', -⟩
  exact eq_of_hits hf hp (by rw [htop]; decide) (hhit hd' hwd') (hhit hd hwd)

/-- The argument for a group of keywords is the keyword that the word selected,
    if and only if the word is spelled out. -/
theorem cmdExecuteCommand_canonical_iff {argv : List CString}
    (h : (cmdExecuteCommand table vline).Selects e argv) :
    ∃ (index : ℕ) (type : MatchType) (v : CmdVector F),
      cmdMatchLoop cmdFilterByCompletion vline 0 .noMatch (vectorCopy table) =
        .ok (index, type, v) ∧
      (∀ i w, i < index → vline[i]? = some w → IsGroup (e.item i) →
        ∃! keyword, SelectsKeyword w (e.item i) keyword) ∧
      ((∀ i w keyword, i < index → vline[i]? = some w → IsGroup (e.item i) →
          SelectsKeyword w (e.item i) keyword →
          argv[argIndex e.strvec i]? = some keyword) ↔
        ∀ i w, i < index → vline[i]? = some w → IsGroup (e.item i) →
          IsSpelledOut w (e.item i)) := by
  obtain ⟨he, harg⟩ := cmdExecuteWith_selects.1 h
  obtain ⟨index, type, v, hend⟩ := exists_matchEnd he
  have hunique : ∀ i w, i < index → vline[i]? = some w → IsGroup (e.item i) →
      ∃! keyword, SelectsKeyword w (e.item i) keyword := by
    intro i w hi hw hg
    obtain ⟨m, hem, hh, hf, hk⟩ := hend.exists_round hi hw
    exact existsUnique_selectsKeyword hh hf hem hk hg
  -- The argument is the word in any case.
  have hargv : argv = consumed e.strvec 0 vline := cmdArgLoop_ok harg
  have hword {i : ℕ} {w : CString} (hw : vline[i]? = some w) (hg : IsGroup (e.item i)) :
      argv[argIndex e.strvec i]? = some w := by
    rw [hargv]
    exact consumed_getElem? hw (consuming_of_isGroup hg)
  refine ⟨index, type, v, hend.loop, hunique, ?_, ?_⟩
  · intro hcan i w hi hw hg
    obtain ⟨k, hsel, -⟩ := hunique i w hi hw hg
    have hkw : k = w := Option.some.inj ((hcan i w k hi hw hg hsel).symm.trans (hword hw hg))
    exact hkw ▸ hsel.1
  · intro hsp i w k hi hw hg hsel
    rw [hsel.2.2 (hsp i w hi hw hg)]
    exact hword hw hg

/-- `make clean` spells its group word out, so `argv` holds the canonical keyword. -/
theorem cmdExecuteCommand_canonical_iff_make :
    ∃ (index : ℕ) (type : MatchType) (v : CmdVector ToolFunc),
      cmdMatchLoop cmdFilterByCompletion (words ["make", "clean"]) 0 .noMatch
        (vectorCopy projectNode) = .ok (index, type, v) ∧
      ((∀ i w keyword, i < index → (words ["make", "clean"])[i]? = some w →
          IsGroup (projectMakeInstallOrCleanCmd.item i) →
          SelectsKeyword w (projectMakeInstallOrCleanCmd.item i) keyword →
          (words ["clean"])[argIndex projectMakeInstallOrCleanCmd.strvec i]? = some keyword) ↔
        ∀ i w, i < index → (words ["make", "clean"])[i]? = some w →
          IsGroup (projectMakeInstallOrCleanCmd.item i) →
          IsSpelledOut w (projectMakeInstallOrCleanCmd.item i)) := by
  have h : (cmdExecuteCommand projectNode (words ["make", "clean"])).Selects
      projectMakeInstallOrCleanCmd (words ["clean"]) := by decide +kernel
  obtain ⟨index, type, v, hloop, -, hiff⟩ := cmdExecuteCommand_canonical_iff h
  exact ⟨index, type, v, hloop, hiff⟩

/-- `make ins` selects `install`, but its handler gets `ins`, and cleans. -/
theorem cmdExecuteCommand_abbreviated :
    cmdExecuteCommand projectNode (words ["make", "ins"]) =
      .call projectMakeInstallOrCleanCmd (words ["ins"]) ∧
    IsGroup (projectMakeInstallOrCleanCmd.item 1) ∧
    SelectsKeyword "ins".toList (projectMakeInstallOrCleanCmd.item 1) "install".toList ∧
    (words ["ins"])[argIndex projectMakeInstallOrCleanCmd.strvec 1]? ≠ some "install".toList := by
  refine ⟨by decide +kernel, by decide, ⟨?_, by decide, fun hs => ?_⟩, by decide⟩
  · exact ⟨⟨"install".toList, some "Export the binary files.".toList⟩, List.mem_cons_self, rfl⟩
  · obtain ⟨d, hd, heq⟩ := hs
    revert d
    decide

end Mksh
