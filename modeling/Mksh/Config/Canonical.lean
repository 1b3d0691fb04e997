import Mathlib.Data.List.Induction
import Mathlib.Data.Multiset.AddSub
import Mksh.Config.Basic

/-!
# The canonical configuration

The configuration stands for multisets of lines: that of `configTop`, and for each
index, those of the names there are (`AbsConfig`). What the calls do to the lists
is what they do to the multisets (`ConfigStore.Run.refines`), and since the lists
are sorted, what is dumped only depends on these (`configDumpBody_congr`): not on
the order in which lines are added (`configDumpBody_addLines`).
-/

namespace Mksh

open CString

/-! ## Multisets of lines -/

/-- The lines of `config_top`, and those of each name at each index. -/
@[ext]
structure AbsConfig where
  top : Multiset CString
  lines : ℕ → CString → Option (Multiset CString)

/-- A multiset of lines. -/
inductive AbsRef
  | top
  | config (index : ℕ) (name : CString)
  deriving DecidableEq

namespace AbsConfig

/-- The multiset that is referred to, if there is one. -/
def list (a : AbsConfig) : AbsRef → Option (Multiset CString)
  | .top => some a.top
  | .config i name => a.lines i name

/-- Another multiset in its place. -/
def set (a : AbsConfig) (m : Multiset CString) : AbsRef → AbsConfig
  | .top => { a with top := m }
  | .config i name =>
    { a with lines := fun i' name' =>
        if (i', name') = (i, name) then some m else a.lines i' name' }

/-- A missing name is created, with no lines. -/
def get (a : AbsConfig) (i : ℕ) (name : CString) : AbsConfig :=
  match a.lines i name with
  | some _ => a
  | none => a.set 0 (.config i name)

end AbsConfig

/-- What a change does to a multiset: it adds a line, unless it is empty, or removes
    one, or the least one that begins with `line`, if there is one. -/
def Change.Acts : Change → CString → Multiset CString → Multiset CString → Prop
  | .add, line, m, m' => m' = if line = [] then m else line ::ₘ m
  | .del, line, m, m' => m' = m.erase line
  | .delByleft, line, m, m' =>
    (∃ first ∈ m, line <+: first ∧ (∀ other ∈ m, line <+: other → strcmp first other ≤ 0) ∧
      m' = m.erase first) ∨ (∀ other ∈ m, ¬ line <+: other) ∧ m' = m

/-- A call, with names for what it refers to. -/
inductive AbsCall
  | get (index : ℕ) (name : CString)
  | change (change : Change) (ref : AbsRef) (line : CString)

/-- The multisets after calls. -/
inductive AbsConfig.Run : List AbsCall → AbsConfig → Prop
  | init : Run [] ⟨0, fun _ _ => none⟩
  | get {calls : List AbsCall} {a : AbsConfig} {i : ℕ} {name : CString} : Run calls a →
      Run (calls ++ [.get i name]) (a.get i name)
  | change {calls : List AbsCall} {a : AbsConfig} {change : Change} {ref : AbsRef}
      {line : CString} {m m' : Multiset CString} : Run calls a → a.list ref = some m →
      change.Acts line m m' → Run (calls ++ [.change change ref line]) (a.set m' ref)

/-! ## Runs -/

/-- A call, with the configuration that it returns. -/
inductive ConfigCall
  | get (index : ℤ) (line : CString) (config : ℕ)
  | change (change : Change) (ref : ListRef) (line : CString)
  deriving DecidableEq

/-- The configuration after calls, on the lists that there are. -/
inductive ConfigStore.Run : List ConfigCall → ConfigStore → Prop
  | init : Run [] configInit
  | get {calls : List ConfigCall} {s s' : ConfigStore} {index : ℤ} {line : CString}
      {config : ℕ} : Run calls s → configGet s index line = some (config, s') →
      Run (calls ++ [.get index line config]) s'
  | change {calls : List ConfigCall} {s : ConfigStore} {ref : ListRef} (change : Change)
      (line : CString) : Run calls s → s.Has ref →
      Run (calls ++ [.change change ref line]) (s.change (change.apply · line) ref)

namespace ConfigStore

/-- The configurations at an index. -/
def master (s : ConfigStore) (i : ℕ) : List ℕ := (s.configvec.slot i).getD []

/-- The index and the name of a configuration. -/
def key (s : ConfigStore) (c : ℕ) : ℕ × CString :=
  (toUnsigned (s.configs c).index, (s.configs c).name)

/-- The configuration of a name at an index. -/
def find (s : ConfigStore) (i : ℕ) (name : CString) : Option ℕ :=
  findConfig s.configs name (s.master i)

/-- The multisets that the lists stand for. -/
def abs (s : ConfigStore) : AbsConfig where
  top := s.configTop
  lines i name := (s.find i name).map fun c => (s.configs c).line

/-- A list is referred to by the index and the name of its configuration. -/
def absRef (s : ConfigStore) : ListRef → AbsRef
  | .top => .top
  | .config c => .config (s.key c).1 (s.key c).2

/-- The call on the multisets that a call stands for. -/
def absCall (s : ConfigStore) : ConfigCall → AbsCall
  | .get index line _ => .get (toUnsigned index) line
  | .change change ref line => .change change (s.absRef ref) line

/-- The lists are sorted, and the names at an index differ. -/
structure Wf (s : ConfigStore) : Prop where
  vector : s.configvec.Wf
  top : SortedBy strcmp s.configTop
  line : ∀ c, SortedBy strcmp (s.configs c).line
  sorted : ∀ i, SortedBy (configCmp s.configs) (s.master i)
  nodup_names : ∀ i, ((s.master i).map fun c => (s.configs c).name).Nodup
  mem_iff : ∀ i c, c ∈ s.master i ↔ c < s.fresh ∧ toUnsigned (s.configs c).index = i

end ConfigStore

/-! ## Changes -/

section Change

variable {list : List CString}

/-- `config_del_line_byleft` compares a prefix only. -/
theorem strncmp_eq_zero_iff {pnt line : CString} :
    strncmp pnt line line.length = 0 ↔ line <+: pnt := by
  rw [strncmp, strcmp_eq_zero, List.take_length, List.prefix_iff_eq_take, eq_comm]

/-- Both changes keep a list sorted. -/
theorem sortedBy_apply (change : Change) (h : SortedBy strcmp list) (line : CString) :
    SortedBy strcmp (change.apply list line) := by
  cases change with
  | add =>
    change SortedBy strcmp (configAddLine list line)
    rw [configAddLine]
    split_ifs
    · exact sortedBy_addSortLoop compares_strcmp h line
    · exact h
  | del => exact List.Pairwise.sublist List.eraseP_sublist h
  | delByleft => exact List.Pairwise.sublist List.eraseP_sublist h

/-- Adding a line adds it to the multiset, unless it is empty. -/
theorem acts_add (line : CString) : Change.add.Acts line list (configAddLine list line) := by
  rw [Change.Acts, configAddLine]
  rcases eq_or_ne line [] with rfl | hne
  · rfl
  · rw [if_neg hne, if_pos (List.length_pos_iff.2 hne), Multiset.cons_coe, Multiset.coe_eq_coe]
    exact addSortLoop_perm _ _ _

theorem coe_eraseP {α : Type*} [DecidableEq α] (list : List α) (a : α) :
    (list.eraseP fun b => decide (b = a) : Multiset α) = (list : Multiset α).erase a := by
  rw [Multiset.coe_erase, List.erase_eq_eraseP']
  rfl

/-- Deleting one erases it. -/
theorem acts_del (line : CString) : Change.del.Acts line list (configDelLine list line) := by
  rw [Change.Acts, ← coe_eraseP, configDelLine]
  simp only [strcmp_eq_zero]

/-- The first line that begins with `line` is the least one. -/
theorem acts_delByleft (h : SortedBy strcmp list) (line : CString) :
    Change.delByleft.Acts line list (configDelLineByleft list line) := by
  by_cases hex : ∃ other ∈ list, line <+: other
  · obtain ⟨other, hother, hpre⟩ := hex
    obtain ⟨first, before, after, hbefore, hfirst, rfl, herase⟩ := List.exists_of_eraseP
      (p := fun pnt => decide (strncmp pnt line line.length = 0)) hother
      (decide_eq_true (strncmp_eq_zero_iff.2 hpre))
    refine .inl ⟨first, by simp, strncmp_eq_zero_iff.1 (of_decide_eq_true hfirst),
      fun b hb hb' => ?_, ?_⟩
    · rcases List.mem_append.1 hb with hb | hb
      · exact absurd (decide_eq_true (strncmp_eq_zero_iff.2 hb')) (hbefore b hb)
      rcases List.mem_cons.1 hb with rfl | hb
      · exact (strcmp_eq_zero.2 rfl).le
      · exact (List.pairwise_cons.1 (List.pairwise_append.1 h).2.1).1 b hb
    · rw [configDelLineByleft, herase, ← Multiset.coe_add, ← Multiset.coe_add, ← Multiset.cons_coe,
        Multiset.add_cons, Multiset.erase_cons_head]
  · push Not at hex
    refine .inr ⟨hex, congrArg _ (List.eraseP_of_forall_not fun b hb => ?_)⟩
    rw [decide_eq_true_eq, strncmp_eq_zero_iff]
    exact hex b hb

/-- Each change of a sorted list acts on its multiset. -/
theorem acts_apply (change : Change) (h : SortedBy strcmp list) (line : CString) :
    change.Acts line list (change.apply list line) := by
  cases change with
  | add => exact acts_add line
  | del => exact acts_del line
  | delByleft => exact acts_delByleft h line

end Change

/-! ## Looking up names -/

section Find

variable {configs : ℕ → Config} {line : CString} {master : List ℕ} {c : ℕ}

/-- The search goes through the configurations from the first one on. -/
theorem findConfig_concat (configs : ℕ → Config) (line : CString) (master : List ℕ) (c : ℕ) :
    findConfig configs line (master ++ [c]) =
      if (configs c).name = line then some c else findConfig configs line master := by
  simp only [findConfig, List.foldl_append, List.foldl_cons, List.foldl_nil, strcmp_eq_zero]

/-- Only the names matter. -/
theorem findConfig_congr {configs' : ℕ → Config} (h : ∀ c, (configs' c).name = (configs c).name) :
    findConfig configs' line master = findConfig configs line master := by
  simp only [findConfig, h]

/-- What is found is in the list, under the name. -/
theorem findConfig_eq_some (h : findConfig configs line master = some c) :
    c ∈ master ∧ (configs c).name = line := by
  induction master using List.reverseRecOn with
  | nil => cases h
  | append_singleton master b ih =>
    rw [findConfig_concat] at h
    split_ifs at h with hb
    · obtain rfl := Option.some.inj h
      exact ⟨List.mem_append_right _ (List.mem_singleton_self b), hb⟩
    · exact (ih h).imp_left (List.mem_append_left _)

/-- Where nothing is found, nothing has the name. -/
theorem findConfig_eq_none (h : findConfig configs line master = none) :
    ∀ c ∈ master, (configs c).name ≠ line := by
  induction master using List.reverseRecOn with
  | nil => exact fun c hc => absurd hc List.not_mem_nil
  | append_singleton master b ih =>
    rw [findConfig_concat] at h
    split_ifs at h with hb
    intro c hc
    rcases List.mem_append.1 hc with hc | hc
    · exact ih h c hc
    · rw [List.mem_singleton.1 hc]
      exact hb

end Find

namespace ConfigStore

variable {s s' : ConfigStore} {i : ℕ} {name : CString} {c : ℕ}

/-- What is found is the configuration of the name at the index. -/
theorem Wf.find_eq_some_iff (h : s.Wf) :
    s.find i name = some c ↔ c < s.fresh ∧ s.key c = (i, name) := by
  rw [key, Prod.mk.injEq, ← and_assoc, ← h.mem_iff]
  refine ⟨findConfig_eq_some, fun hc => ?_⟩
  rcases hfind : s.find i name with _ | c'
  · exact absurd hc.2 (findConfig_eq_none hfind c hc.1)
  · obtain ⟨hc', hname⟩ := findConfig_eq_some hfind
    exact congrArg some
      (List.inj_on_of_nodup_map (h.nodup_names i) hc' hc.1 (hname.trans hc.2.symm))

/-- The abstract state has the lines of each configuration under its key. -/
theorem Wf.lines_key (h : s.Wf) (hc : c < s.fresh) :
    s.abs.lines (s.key c).1 (s.key c).2 = some ((s.configs c).line : Multiset CString) := by
  have hfind : s.find (s.key c).1 (s.key c).2 = some c := h.find_eq_some_iff.2 ⟨hc, rfl⟩
  change (s.find (s.key c).1 (s.key c).2).map _ = _
  rw [hfind]
  rfl

/-- Changing the lines of one keeps what is found. -/
theorem find_change (f : List CString → List CString) (ref : ListRef) (i : ℕ) (name : CString) :
    (s.change f ref).find i name = s.find i name := by
  cases ref with
  | top => rfl
  | config c =>
    refine findConfig_congr fun c' => ?_
    change (Function.update s.configs c _ c').name = _
    rcases eq_or_ne c' c with rfl | hne
    · rw [Function.update_self]
    · rw [Function.update_of_ne hne]

/-- Changing a list changes the multiset that it stands for. -/
theorem Wf.abs_change (h : s.Wf) (f : List CString → List CString) {ref : ListRef}
    (href : s.Has ref) : ∃ list : List CString, SortedBy strcmp list ∧
      s.abs.list (s.absRef ref) = some (list : Multiset CString) ∧
      (s.change f ref).abs = s.abs.set (f list) (s.absRef ref) := by
  cases ref with
  | top => exact ⟨s.configTop, h.top, rfl, rfl⟩
  | config c =>
    refine ⟨(s.configs c).line, h.line c, h.lines_key href, AbsConfig.ext rfl ?_⟩
    funext i name
    change ((s.change f (.config c)).find i name).map _ =
      if (i, name) = s.key c then _ else (s.find i name).map _
    rw [find_change]
    split_ifs with hkey
    · have hfind : s.find i name = some c := h.find_eq_some_iff.2 ⟨href, hkey.symm⟩
      rw [hfind, Option.map_some]
      change some (((Function.update s.configs c _ c).line : List CString) : Multiset CString) = _
      rw [Function.update_self]
    · refine Option.map_congr fun c' hc' => ?_
      have hne : c' ≠ c := by
        rintro rfl
        exact hkey (h.find_eq_some_iff.1 hc').2.symm
      change (((Function.update s.configs c _ c').line : List CString) : Multiset CString) = _
      rw [Function.update_of_ne hne]

/-- It keeps the names and indices. -/
theorem change_config (f : List CString → List CString) (ref : ListRef) (c : ℕ) :
    ((s.change f ref).configs c).name = (s.configs c).name ∧
      ((s.change f ref).configs c).index = (s.configs c).index := by
  cases ref with
  | top => exact ⟨rfl, rfl⟩
  | config c' =>
    change (Function.update s.configs c' _ c).name = _ ∧
      (Function.update s.configs c' _ c).index = _
    rcases eq_or_ne c c' with rfl | hne
    · rw [Function.update_self]
      exact ⟨rfl, rfl⟩
    · rw [Function.update_of_ne hne]
      exact ⟨rfl, rfl⟩

@[simp]
theorem change_configvec (f : List CString → List CString) (ref : ListRef) :
    (s.change f ref).configvec = s.configvec := by
  cases ref with
  | top => rfl
  | config c => rfl

@[simp]
theorem change_fresh (f : List CString → List CString) (ref : ListRef) :
    (s.change f ref).fresh = s.fresh := by
  cases ref with
  | top => rfl
  | config c => rfl

@[simp]
theorem change_key (f : List CString → List CString) (ref : ListRef) (c : ℕ) :
    (s.change f ref).key c = s.key c := by
  rw [key, key, (change_config f ref c).1, (change_config f ref c).2]

/-- A change that keeps lists sorted keeps the store well formed. -/
theorem Wf.change (h : s.Wf) {f : List CString → List CString}
    (hf : ∀ list, SortedBy strcmp list → SortedBy strcmp (f list)) (ref : ListRef) :
    (s.change f ref).Wf := by
  have hname (c : ℕ) := (change_config (s := s) f ref c).1
  have hmaster (i : ℕ) : (s.change f ref).master i = s.master i := by
    rw [master, master, change_configvec]
  refine ⟨?_, ?_, fun c => ?_, fun i => ?_, fun i => ?_, fun i c => ?_⟩
  · rw [change_configvec]
    exact h.vector
  · -- The list that is changed is kept sorted, the others are those of before.
    cases ref with
    | top => exact hf _ h.top
    | config c => exact h.top
  · cases ref with
    | top => exact h.line c
    | config c' =>
      change SortedBy strcmp (Function.update s.configs c' _ c).line
      rcases eq_or_ne c c' with rfl | hne
      · rw [Function.update_self]
        exact hf _ (h.line c)
      · rw [Function.update_of_ne hne]
        exact h.line c
  · rw [hmaster]
    refine (h.sorted i).congr fun a _ b _ => ?_
    rw [configCmp, configCmp, hname, hname]
  · simp only [hmaster, hname]
    exact h.nodup_names i
  · rw [hmaster, change_fresh, (change_config f ref c).2]
    exact h.mem_iff i c

/-! ## Asking for a configuration -/

/-- Making room for an index keeps the lists that there are. -/
theorem masterEnsure_eq_some {v v' : CVector (List ℕ)} {list : List ℕ} (hv : v.Wf)
    (h : masterEnsure v i = some (v', list)) : v'.Wf ∧ i < v'.max ∧ list = (v.slot i).getD [] ∧
      ∀ j, (v'.slot j).getD [] = (v.slot j).getD [] := by
  rw [masterEnsure, vectorLookupEnsure, Option.bind_map] at h
  obtain ⟨grown, hgrown, h⟩ := Option.bind_eq_some_iff.1 h
  obtain ⟨hslots, hwf, -⟩ := vectorEnsure_eq_some hv hgrown
  rw [Function.comp_apply] at h
  -- A slot that is still empty gets a new list, and counted as empty before.
  rcases hslot : grown.slot i with _ | list'
  · rw [hslot] at h
    obtain ⟨v'', hset, heq⟩ := Option.map_eq_some_iff.1 h
    obtain ⟨rfl, rfl⟩ := Prod.mk.inj heq
    obtain ⟨hisSet, hmax⟩ := vectorSetIndex_eq_some hwf hset
    refine ⟨hisSet.wf, hmax, by rw [← hslots.slot_eq, hslot]; rfl, fun j => ?_⟩
    rw [hisSet.slot_eq, ← hslots.slot_eq]
    split_ifs with hj
    · rw [hj, hslot]
      rfl
    · rfl
  · rw [hslot] at h
    obtain ⟨rfl, rfl⟩ := Prod.mk.inj (Option.some.inj h)
    refine ⟨hwf, ?_, by rw [← hslots.slot_eq, hslot]; rfl, fun j => by rw [hslots.slot_eq]⟩
    by_contra hmax
    rw [hwf.slot_eq_none i (Nat.le_of_not_lt hmax)] at hslot
    cases hslot

/-- The store with a vector that has the same lists. -/
theorem Wf.setVector (h : s.Wf) {v : CVector (List ℕ)} (hv : v.Wf)
    (hmaster : ∀ j, (v.slot j).getD [] = s.master j) :
    { s with configvec := v }.Wf ∧ { s with configvec := v }.abs = s.abs := by
  have hsame : ∀ j, { s with configvec := v }.master j = s.master j := hmaster
  refine ⟨⟨hv, h.top, h.line, fun j => ?_, fun j => ?_, fun j c => ?_⟩, AbsConfig.ext rfl ?_⟩
  · rw [hsame]
    exact h.sorted j
  · rw [hsame]
    exact h.nodup_names j
  · rw [hsame]
    exact h.mem_iff j c
  · funext j name
    change (findConfig s.configs name ({ s with configvec := v }.master j)).map _ = _
    rw [hsame]
    rfl

theorem compares_configCmp (configs : ℕ → Config) : Compares (configCmp configs) where
  flip h := compares_strcmp.flip h
  trans h h' := compares_strcmp.trans h h'

/-- The store with a new configuration, in the list at its index. -/
def create (s : ConfigStore) (v : CVector (List ℕ)) (index : ℤ) (name : CString) : ConfigStore :=
  let configs := Function.update s.configs s.fresh ⟨name, index, []⟩
  let master := listnodeAddSort (some (configCmp configs)) s.fresh (s.master (toUnsigned index))
  { s with
    configvec := v.setSlot (toUnsigned index) master
    configs
    fresh := s.fresh + 1 }

section Create

variable {v : CVector (List ℕ)} {index : ℤ} (hv : v.Wf) (hmax : toUnsigned index < v.max)
  (hmaster : ∀ j, (v.slot j).getD [] = s.master j)

theorem create_config_of_lt (hc : c < s.fresh) :
    (s.create v index name).configs c = s.configs c :=
  Function.update_of_ne hc.ne _ _

theorem create_config_self : (s.create v index name).configs s.fresh = ⟨name, index, []⟩ :=
  Function.update_self ..

/-- The new configuration has the key that was asked for. -/
theorem key_create_self : (s.create v index name).key s.fresh = (toUnsigned index, name) := by
  rw [key, create_config_self]

/-- The others keep theirs. -/
theorem key_create_of_lt (hc : c < s.fresh) : (s.create v index name).key c = s.key c := by
  rw [key, create_config_of_lt hc, key]

theorem lt_of_mem_master (h : s.Wf) (hc : c ∈ s.master i) : c < s.fresh :=
  ((h.mem_iff i c).1 hc).1

include hv hmax hmaster in

/-- The new one is sorted into the list of its index. -/
theorem master_create (j : ℕ) : (s.create v index name).master j =
    if j = toUnsigned index then
      addSortLoop (configCmp (s.create v index name).configs) s.fresh (s.master j)
    else s.master j := by
  change ((v.setSlot (toUnsigned index) _).slot j).getD [] = _
  rw [(hv.isSet_setSlot hmax _).slot_eq]
  split_ifs with hj
  · rw [hj]
    rfl
  · exact hmaster j

include hv hmax hmaster in

/-- A new name keeps the store well formed. -/
theorem Wf.create (h : s.Wf) (hnone : s.find (toUnsigned index) name = none) :
    (s.create v index name).Wf := by
  have hmem (j c : ℕ) : c ∈ (s.create v index name).master j ↔
      c ∈ s.master j ∨ c = s.fresh ∧ j = toUnsigned index := by
    rw [master_create hv hmax hmaster]
    split_ifs with hj
    · rw [(addSortLoop_perm ..).mem_iff, List.mem_cons, or_comm]
      simp [hj]
    · simp [hj]
  have hold (j : ℕ) : SortedBy (configCmp (s.create v index name).configs) (s.master j) := by
    refine (h.sorted j).congr fun a ha b hb => ?_
    rw [configCmp, configCmp, create_config_of_lt (lt_of_mem_master h ha),
      create_config_of_lt (lt_of_mem_master h hb)]
  have hnames (j : ℕ) : ((s.master j).map fun c => ((s.create v index name).configs c).name) =
      (s.master j).map fun c => (s.configs c).name :=
    List.map_congr_left fun c hc =>
      congrArg Config.name (create_config_of_lt (lt_of_mem_master h hc))
  refine ⟨(hv.isSet_setSlot hmax _).wf, h.top, fun c => ?_, fun j => ?_, fun j => ?_,
    fun j c => ?_⟩
  · change SortedBy strcmp (Function.update s.configs s.fresh _ c).line
    rcases eq_or_ne c s.fresh with rfl | hne
    · rw [Function.update_self]
      exact List.Pairwise.nil
    · rw [Function.update_of_ne hne]
      exact h.line c
  · rw [master_create hv hmax hmaster]
    split_ifs
    · exact sortedBy_addSortLoop (compares_configCmp _) (hold j) _
    · exact hold j
  · rw [master_create hv hmax hmaster]
    split_ifs with hj
    · rw [((addSortLoop_perm ..).map _).nodup_iff, List.map_cons, List.nodup_cons, hnames,
        create_config_self]
      -- The name is new, since it was not found.
      refine ⟨fun hname => ?_, h.nodup_names j⟩
      obtain ⟨c, hc, hname⟩ := List.mem_map.1 hname
      exact findConfig_eq_none hnone c (hj ▸ hc) hname
    · rw [hnames]
      exact h.nodup_names j
  · rw [hmem, h.mem_iff]
    change _ ↔ c < s.fresh + 1 ∧ _
    -- The configurations from before, the new one, and none beyond it.
    rcases lt_trichotomy c s.fresh with hc | rfl | hc
    · rw [create_config_of_lt hc]
      simp [hc, hc.ne, hc.trans (Nat.lt_succ_self _)]
    · rw [create_config_self]
      simp [eq_comm]
    · simp [hc.not_gt, hc.ne', Nat.not_lt.2 (Nat.succ_le_of_lt hc)]

include hv hmax hmaster in

/-- In the abstract state, it is a new key without lines. -/
theorem Wf.abs_create (h : s.Wf) (hnone : s.find (toUnsigned index) name = none) :
    (s.create v index name).abs = s.abs.set 0 (.config (toUnsigned index) name) := by
  have hwf := h.create hv hmax hmaster hnone
  refine AbsConfig.ext rfl ?_
  funext j name'
  change ((s.create v index name).find j name').map _ =
    if (j, name') = (toUnsigned index, name) then some 0 else (s.find j name').map _
  -- The new key has an empty list, and all others are found as before.
  split_ifs with hkey
  · have hfind : (s.create v index name).find j name' = some s.fresh :=
      hwf.find_eq_some_iff.2 ⟨Nat.lt_succ_self _, key_create_self.trans hkey.symm⟩
    rw [hfind, Option.map_some, create_config_self]
    rfl
  · have hfind : (s.create v index name).find j name' = s.find j name' := by
      refine Option.ext fun c => ?_
      rw [hwf.find_eq_some_iff, h.find_eq_some_iff]
      change c < s.fresh + 1 ∧ _ ↔ _
      rcases lt_trichotomy c s.fresh with hc | rfl | hc
      · rw [key_create_of_lt hc]
        simp [hc, hc.trans (Nat.lt_succ_self _)]
      · rw [key_create_self]
        exact iff_of_false (fun hc => hkey hc.2.symm) fun hc => absurd hc.1 (Nat.lt_irrefl _)
      · exact iff_of_false (fun h => absurd h.1 (by omega)) fun h => absurd h.1 (by omega)
    rw [hfind]
    refine Option.map_congr fun c hc => ?_
    rw [create_config_of_lt (h.find_eq_some_iff.1 hc).1]

end Create

/-- What asking for the configuration `c` of a name leads to. -/
structure Gotten (s : ConfigStore) (i : ℕ) (name : CString) (c : ℕ) (s' : ConfigStore) :
    Prop where
  wf : s'.Wf
  abs_eq : s'.abs = s.abs.get i name
  lt : c < s'.fresh
  key_self : s'.key c = (i, name)
  fresh_le : s.fresh ≤ s'.fresh
  key_eq : ∀ b < s.fresh, s'.key b = s.key b

/-- Getting a configuration finds it, or creates it. -/
theorem Wf.gotten (h : s.Wf) {index : ℤ} (hget : configGet s index name = some (c, s')) :
    s.Gotten (toUnsigned index) name c s' := by
  obtain ⟨⟨v, list⟩, hensure, heq⟩ := Option.map_eq_some_iff.1 hget
  obtain ⟨hv, hmax, rfl, hmaster⟩ := masterEnsure_eq_some h.vector hensure
  dsimp only at heq
  -- Where the name is not found, a configuration is created.
  rcases hfind : s.find (toUnsigned index) name with _ | c'
  · have hfind' : findConfig s.configs name ((s.configvec.slot (toUnsigned index)).getD []) =
        none := hfind
    rw [hfind'] at heq
    obtain ⟨rfl, rfl⟩ := Prod.mk.inj heq
    refine ⟨h.create hv hmax hmaster hfind, ?_, Nat.lt_succ_self _, key_create_self,
      Nat.le_succ _, fun b hb => key_create_of_lt hb⟩
    have hlines : s.abs.lines (toUnsigned index) name = none := by
      change (s.find (toUnsigned index) name).map _ = _
      rw [hfind]
      rfl
    rw [AbsConfig.get, hlines]
    exact h.abs_create hv hmax hmaster hfind
  · have hfind' : findConfig s.configs name ((s.configvec.slot (toUnsigned index)).getD []) =
        some c' := hfind
    rw [hfind'] at heq
    obtain ⟨rfl, rfl⟩ := Prod.mk.inj heq
    obtain ⟨hwf, habs⟩ := h.setVector hv hmaster
    obtain ⟨hlt, hkey⟩ := h.find_eq_some_iff.1 hfind
    refine ⟨hwf, ?_, hlt, hkey, le_rfl, fun _ _ => rfl⟩
    have hlines : s.abs.lines (toUnsigned index) name =
        some ((s.configs c').line : Multiset CString) := by
      change (s.find (toUnsigned index) name).map _ = _
      rw [hfind]
      rfl
    rw [habs, AbsConfig.get, hlines]

/-- There is a configuration for each index that is not negative. -/
theorem Wf.exists_configGet (h : s.Wf) {index : ℤ} (hpos : 0 ≤ index) (hlt : index < 2 ^ 31)
    (name : CString) : ∃ c s', configGet s index name = some (c, s') := by
  have hi : toUnsigned index < 2 ^ 31 := by
    rw [toUnsigned]
    omega
  obtain ⟨grown, hgrown⟩ := exists_vectorEnsure h.vector hi
  obtain ⟨-, hwf, -⟩ := vectorEnsure_eq_some h.vector hgrown
  obtain ⟨p, hp⟩ : ∃ p, masterEnsure s.configvec (toUnsigned index) = some p := by
    rw [masterEnsure, vectorLookupEnsure, hgrown, Option.map_some, Option.bind_some]
    rcases grown.slot (toUnsigned index) with _ | list
    · obtain ⟨v, hset⟩ := exists_vectorSetIndex hwf hi ([] : List ℕ)
      exact ⟨(v, []), by rw [hset]; rfl⟩
    · exact ⟨(grown, list), rfl⟩
  rw [configGet, hp]
  exact ⟨_, _, rfl⟩

/-! ## Refinement -/

/-- The store is well formed from the start. -/
theorem wf_init : configInit.Wf := by
  have hnil (i : ℕ) : configInit.master i = [] := by
    change ((vectorInit 1 : CVector (List ℕ)).slot i).getD [] = []
    rw [CVector.wf_init.slot_eq_none i (Nat.zero_le i)]
    rfl
  refine ⟨CVector.wf_init, List.Pairwise.nil, fun _ => List.Pairwise.nil, fun i => ?_, fun i => ?_,
    fun i c => ?_⟩
  · rw [hnil]
    exact List.Pairwise.nil
  · rw [hnil]
    exact List.Pairwise.nil
  · rw [hnil]
    exact iff_of_false List.not_mem_nil fun h => absurd h.1 (Nat.not_lt_zero c)

/-- It starts without any lines. -/
theorem abs_init : configInit.abs = ⟨0, fun _ _ => none⟩ := by
  refine AbsConfig.ext rfl ?_
  funext i name
  have hnone : configInit.find i name = none := by
    rw [Option.eq_none_iff_forall_ne_some]
    intro c hc
    exact absurd (wf_init.find_eq_some_iff.1 hc).1 (Nat.not_lt_zero c)
  change (configInit.find i name).map _ = none
  rw [hnone]
  rfl

/-- The configurations that the calls are about. -/
def Covers (s : ConfigStore) : ConfigCall → Prop
  | .get index line c => c < s.fresh ∧ s.key c = (toUnsigned index, line)
  | .change _ ref _ => s.Has ref

/-- What a call means depends on the keys of the configurations only. -/
theorem absCall_congr {call : ConfigCall} (h : s.Covers call) (hle : s.fresh ≤ s'.fresh)
    (hkey : ∀ b < s.fresh, s'.key b = s.key b) :
    s'.Covers call ∧ s'.absCall call = s.absCall call := by
  cases call with
  | get index line c => exact ⟨⟨h.1.trans_le hle, (hkey c h.1).trans h.2⟩, rfl⟩
  | change change ref line =>
    cases ref with
    | top => exact ⟨trivial, rfl⟩
    | config c =>
      refine ⟨Nat.lt_of_lt_of_le (m := s.fresh) h hle, ?_⟩
      rw [absCall, absCall, absRef, absRef, hkey c h]

/-- After calls, the store is as the multisets after the calls that these stand for. -/
theorem Run.refines {calls : List ConfigCall} (h : Run calls s) :
    s.Wf ∧ (∀ call ∈ calls, s.Covers call) ∧ AbsConfig.Run (calls.map s.absCall) s.abs := by
  induction h with
  | init =>
    refine ⟨wf_init, fun _ hcall => absurd hcall List.not_mem_nil, ?_⟩
    rw [abs_init]
    exact .init
  | @get calls s s' index line c _ hget ih =>
    obtain ⟨hwf, hcovers, hrun⟩ := ih
    have hgot := hwf.gotten hget
    -- The keys stay, and with them what the earlier calls mean.
    have hcalls (call : ConfigCall) (hcall : call ∈ calls) :=
      absCall_congr (hcovers call hcall) hgot.fresh_le hgot.key_eq
    refine ⟨hgot.wf, fun call hcall => ?_, ?_⟩
    · rcases List.mem_append.1 hcall with hcall | hcall
      · exact (hcalls call hcall).1
      · rw [List.mem_singleton.1 hcall]
        exact ⟨hgot.lt, hgot.key_self⟩
    · rw [List.map_append, List.map_congr_left fun call hcall => (hcalls call hcall).2,
        hgot.abs_eq]
      exact hrun.get
  | @change calls s ref change line _ href ih =>
    obtain ⟨hwf, hcovers, hrun⟩ := ih
    have hle : s.fresh ≤ (s.change (change.apply · line) ref).fresh := by rw [change_fresh]
    have hcalls (call : ConfigCall) (hcall : s.Covers call) :=
      absCall_congr hcall hle fun b _ => change_key _ ref b
    obtain ⟨list, hlist, hm, habs⟩ := hwf.abs_change (change.apply · line) href
    refine ⟨hwf.change (fun l hl => sortedBy_apply change hl line) ref, fun call hcall => ?_, ?_⟩
    · rcases List.mem_append.1 hcall with hcall | hcall
      · exact (hcalls call (hcovers call hcall)).1
      · rw [List.mem_singleton.1 hcall]
        exact (hcalls (.change change ref line) href).1
    · rw [List.map_append,
        List.map_congr_left fun call hcall => (hcalls call (hcovers call hcall)).2,
        List.map_singleton, (hcalls (.change change ref line) href).2, habs]
      exact hrun.change hm (acts_apply change hlist line)

/-! ## Dumping -/

/-- What is written for a name at an index. -/
def dumpName (s : ConfigStore) (i : ℕ) (name : CString) : CString :=
  match s.find i name with
  | some c => (s.configs c).dump
  | none => []

/-- The names at an index. -/
def names (s : ConfigStore) (i : ℕ) : List CString :=
  (s.master i).map fun c => (s.configs c).name

/-- The names of an index are those with lines in the abstract state. -/
theorem Wf.mem_names_iff (h : s.Wf) : name ∈ s.names i ↔ (s.abs.lines i name).isSome := by
  change _ ↔ ((s.find i name).map _).isSome
  rw [Option.isSome_map, Option.isSome_iff_exists, names, List.mem_map]
  refine exists_congr fun c => ?_
  rw [h.find_eq_some_iff, h.mem_iff, key, Prod.mk.injEq, and_assoc]

/-- The names at an index are known from the multisets. -/
theorem Wf.names_congr (h : s.Wf) (h' : s'.Wf) (habs : s'.abs = s.abs) (i : ℕ) :
    s'.names i = s.names i := by
  have hsorted {s : ConfigStore} (h : s.Wf) : SortedBy strcmp (s.names i) :=
    List.pairwise_map.2 (h.sorted i)
  refine (hsorted h').eq_of_perm (hsorted h) ((List.perm_ext_iff_of_nodup (h'.nodup_names i)
    (h.nodup_names i)).2 fun name => ?_)
  rw [← names, ← names, h.mem_names_iff, h'.mem_names_iff, habs]

/-- What is written for a name is known from its multiset. -/
theorem Wf.dumpName_congr (h : s.Wf) (h' : s'.Wf) (habs : s'.abs = s.abs) (i : ℕ)
    (name : CString) : s'.dumpName i name = s.dumpName i name := by
  have hlines : (s'.find i name).map (fun c => ((s'.configs c).line : Multiset CString)) =
      (s.find i name).map fun c => ((s.configs c).line : Multiset CString) :=
    congrFun (congrFun (congrArg AbsConfig.lines habs) i) name
  rw [dumpName, dumpName]
  rcases hfind : s.find i name with _ | c
  · rw [hfind, Option.map_none, Option.map_eq_none_iff] at hlines
    rw [hlines]
  · rw [hfind] at hlines
    obtain ⟨c', hfind', hline⟩ := Option.map_eq_some_iff.1 hlines
    have hline : (s'.configs c').line = (s.configs c).line :=
      (h'.line c').eq_of_perm (h.line c) (Multiset.coe_eq_coe.1 hline)
    rw [hfind']
    dsimp only
    rw [Config.dump, Config.dump, hline, (findConfig_eq_some hfind).2,
      (findConfig_eq_some hfind').2]

/-- The dump of an index goes through its names. -/
theorem Wf.flatMap_dump (h : s.Wf) (i : ℕ) :
    (s.master i).flatMap (fun c => (s.configs c).dump) = (s.names i).flatMap (s.dumpName i) := by
  rw [names, List.flatMap_map]
  refine List.flatMap_congr fun c hc => ?_
  have hfind : s.find i (s.configs c).name = some c :=
    h.find_eq_some_iff.2 ⟨lt_of_mem_master h hc, by rw [key, ((h.mem_iff i c).1 hc).2]⟩
  rw [dumpName, hfind]

/-- What is written for the configurations, for any number of indices that is large
    enough. -/
theorem Wf.flatMap_range (h : s.Wf) {n : ℕ} (hn : s.configvec.max ≤ n) :
    (List.range s.configvec.max).flatMap (fun i => dumpSlot s.configs (s.configvec.slot i)) =
      (List.range n).flatMap fun i => (s.names i).flatMap (s.dumpName i) := by
  have hslot (i : ℕ) : dumpSlot s.configs (s.configvec.slot i) =
      (s.names i).flatMap (s.dumpName i) := by
    rw [← h.flatMap_dump, master]
    rcases s.configvec.slot i with _ | list
    · rfl
    · rfl
  obtain ⟨k, rfl⟩ := Nat.exists_eq_add_of_le hn
  rw [List.range_add, List.flatMap_append, List.flatMap_congr fun i _ => hslot i]
  refine (List.append_right_eq_self.2 (List.flatMap_eq_nil_iff.2 fun i hi => ?_)).symm
  obtain ⟨j, -, rfl⟩ := List.mem_map.1 hi
  rw [names, master, h.vector.slot_eq_none _ (Nat.le_add_right _ j)]
  rfl

/-- What is written is known from the multisets. -/
theorem configDumpBody_congr (h : s.Wf) (h' : s'.Wf) (habs : s'.abs = s.abs) :
    configDumpBody s' = configDumpBody s := by
  have htop : s'.configTop = s.configTop :=
    h'.top.eq_of_perm h.top (Multiset.coe_eq_coe.1 (congrArg AbsConfig.top habs))
  rw [configDumpBody, configDumpBody, htop, h.flatMap_range (le_max_left _ s'.configvec.max),
    h'.flatMap_range (le_max_right s.configvec.max _)]
  simp only [h.names_congr h' habs]
  refine congrArg _ (List.flatMap_congr fun i _ => List.flatMap_congr fun name _ => ?_)
  exact h.dumpName_congr h' habs i name

end ConfigStore

/-! ## The order of additions -/

/-- A line added to a multiset, unless it is empty. -/
def addText (m : Multiset CString) (line : CString) : Multiset CString :=
  if line = [] then m else line ::ₘ m

/-- Lines may be added in any order. -/
theorem addText_comm (m : Multiset CString) (line line' : CString) :
    addText (addText m line) line' = addText (addText m line') line := by
  rw [addText, addText, addText, addText]
  split_ifs
  · rfl
  · rfl
  · rfl
  · exact Multiset.cons_swap _ _ _

/-- A line added to the multiset that `ref` stands for. -/
def AbsConfig.add (a : AbsConfig) (add : AbsRef × CString) : AbsConfig where
  top := if add.1 = .top then addText a.top add.2 else a.top
  lines i name := if add.1 = .config i name then (a.lines i name).map (addText · add.2)
    else a.lines i name

/-- The order of two additions does not matter. -/
instance : RightCommutative AbsConfig.add where
  right_comm a add add' := by
    refine AbsConfig.ext ?_ ?_
    · change (if _ then addText (if _ then _ else _) _ else if _ then _ else _) =
        if _ then addText (if _ then _ else _) _ else if _ then _ else _
      split_ifs
      · exact addText_comm _ _ _
      · rfl
      · rfl
      · rfl
    · funext i name
      change (if _ then Option.map _ (if _ then _ else _) else if _ then _ else _) =
        if _ then Option.map _ (if _ then _ else _) else if _ then _ else _
      split_ifs
      · rw [Option.map_map, Option.map_map]
        exact Option.map_congr fun m _ => addText_comm m _ _
      · rfl
      · rfl
      · rfl

namespace ConfigStore

variable {s s' : ConfigStore}

/-- Adding lines, one after another. -/
def addLines (s : ConfigStore) (adds : List (ListRef × CString)) : ConfigStore :=
  adds.foldl (fun s add => s.change (configAddLine · add.2) add.1) s

/-- Adding a line to a list adds it in the abstract state. -/
theorem Wf.abs_add (h : s.Wf) {ref : ListRef} (href : s.Has ref) (line : CString) :
    (s.change (configAddLine · line) ref).abs = s.abs.add (s.absRef ref, line) := by
  obtain ⟨list, -, hm, habs⟩ := h.abs_change (configAddLine · line) href
  have hadd : (configAddLine list line : Multiset CString) = addText list line := acts_add line
  rw [habs, hadd]
  cases ref with
  | top =>
    obtain hm : (s.configTop : Multiset CString) = list := Option.some.inj hm
    rw [← hm]
    rfl
  | config c =>
    refine AbsConfig.ext rfl ?_
    funext i name
    change (if (i, name) = s.key c then _ else _) =
      if AbsRef.config (s.key c).1 (s.key c).2 = .config i name then _ else _
    by_cases hkey : (i, name) = s.key c
    · obtain rfl : i = (s.key c).1 := congrArg Prod.fst hkey
      obtain rfl : name = (s.key c).2 := congrArg Prod.snd hkey
      rw [if_pos hkey, if_pos rfl]
      exact (congrArg (Option.map (addText · line)) hm).symm
    · rw [if_neg hkey, if_neg]
      rintro hconfig
      obtain ⟨rfl, rfl⟩ := AbsRef.config.inj hconfig
      exact hkey rfl

/-- So does adding several. -/
theorem abs_addLines (h : s.Wf) {adds : List (ListRef × CString)}
    (hadds : ∀ add ∈ adds, s.Has add.1) : (s.addLines adds).Wf ∧
      (s.addLines adds).abs = (adds.map fun add => (s.absRef add.1, add.2)).foldl .add s.abs := by
  induction adds generalizing s with
  | nil => exact ⟨h, rfl⟩
  | cons add adds ih =>
    have hstep : (s.change (configAddLine · add.2) add.1).Wf :=
      h.change (fun l hl => sortedBy_apply .add hl add.2) add.1
    -- Adding a line changes no key.
    have hsame : ∀ ref, (s.change (configAddLine · add.2) add.1).absRef ref = s.absRef ref := by
      intro ref
      cases ref with
      | top => rfl
      | config c => rw [absRef, absRef, change_key]
    have hhas : ∀ add' ∈ adds, (s.change (configAddLine · add.2) add.1).Has add'.1 := by
      intro add' hadd'
      have hhas := hadds add' (List.mem_cons_of_mem _ hadd')
      rcases href : add'.1 with _ | c
      · trivial
      · rw [href] at hhas
        change c < _
        rw [change_fresh]
        exact hhas
    obtain ⟨hwf, habs⟩ := ih hstep hhas
    refine ⟨hwf, ?_⟩
    rw [List.map_cons, List.foldl_cons, ← h.abs_add (hadds add List.mem_cons_self) add.2]
    simp only [hsame] at habs
    exact habs

/-- What is written does not depend on the order in which lines are added. -/
theorem configDumpBody_addLines (h : s.Wf) {adds adds' : List (ListRef × CString)}
    (hperm : adds.Perm adds') (hadds : ∀ add ∈ adds, s.Has add.1) :
    configDumpBody (s.addLines adds') = configDumpBody (s.addLines adds) := by
  obtain ⟨hwf, habs⟩ := abs_addLines h hadds
  obtain ⟨hwf', habs'⟩ := abs_addLines h fun add hadd => hadds add (hperm.mem_iff.2 hadd)
  refine configDumpBody_congr hwf hwf' ?_
  rw [habs, habs']
  exact ((hperm.map _).foldl_eq _).symm

/-- After calls, the store is as the multisets are after them, what is asked for is the
    configuration of the name, the names at an index differ, and what is written is known
    from the multisets, whatever the order of the additions. -/
theorem run_canonical {calls : List ConfigCall} (h : Run calls s) :
    AbsConfig.Run (calls.map s.absCall) s.abs ∧ (∀ call ∈ calls, s.Covers call) ∧
      (∀ i, (s.names i).Nodup) ∧
      (∀ index : ℤ, 0 ≤ index → index < 2 ^ 31 → ∀ name,
        ∃ c s', configGet s index name = some (c, s')) ∧
      (∀ calls' s', Run calls' s' → s'.abs = s.abs → configDumpBody s' = configDumpBody s) ∧
      ∀ adds adds' : List (ListRef × CString), adds.Perm adds' → (∀ add ∈ adds, s.Has add.1) →
        configDumpBody (s.addLines adds') = configDumpBody (s.addLines adds) := by
  obtain ⟨hwf, hcovers, hrun⟩ := h.refines
  refine ⟨hrun, hcovers, hwf.nodup_names, fun index hpos hlt => hwf.exists_configGet hpos hlt,
    fun calls' s' h' habs => ?_, fun adds adds' => configDumpBody_addLines hwf⟩
  exact configDumpBody_congr hwf h'.refines.1 habs

/-- Two lines are added to a new configuration, and both removed again, one by what it begins
    with. Two more are added afterwards, in any order. -/
theorem run_canonical_delete : ∃ s, Run [.get 1 ['b'] 0, .change .add (.config 0) ['x'],
      .change .add (.config 0) ['l', 'y'], .change .del (.config 0) ['x'],
      .change .add .top ['t'], .change .delByleft (.config 0) ['l']] s ∧
    AbsConfig.Run [.get 1 ['b'], .change .add (.config 1 ['b']) ['x'],
      .change .add (.config 1 ['b']) ['l', 'y'], .change .del (.config 1 ['b']) ['x'],
      .change .add .top ['t'], .change .delByleft (.config 1 ['b']) ['l']] s.abs ∧
    (s.names 1).Nodup ∧ (∃ c s', configGet s 1 ['b'] = some (c, s')) ∧
    configDumpBody (s.addLines [(.config 0, ['z']), (.top, ['a']), (.config 0, ['v'])]) =
      configDumpBody (s.addLines [(.config 0, ['v']), (.config 0, ['z']), (.top, ['a'])]) := by
  have hget : configGet configInit 1 ['b'] = some (0, _) := rfl
  have hrun := ((((Run.get .init hget).change .add ['x']
    (show Has _ (.config 0) by decide)).change .add ['l', 'y']
    (show Has _ (.config 0) by decide)).change .del ['x']
    (show Has _ (.config 0) by decide)).change .add ['t'] (show Has _ .top by trivial)
  have hrun' := hrun.change .delByleft ['l'] (show Has _ (.config 0) by decide)
  obtain ⟨habs, -, hnames, hfound, -, hperm⟩ := run_canonical hrun'
  refine ⟨_, hrun', habs, hnames 1, hfound 1 (by decide) (by decide) ['b'], hperm _ _ ?_ ?_⟩
  · decide
  · -- The configuration is there, and so is the top.
    have hconfig : 0 < 1 := Nat.zero_lt_one
    exact List.forall_mem_cons.2 ⟨hconfig, List.forall_mem_cons.2 ⟨hconfig,
      List.forall_mem_singleton.2 trivial⟩⟩

end ConfigStore

end Mksh
