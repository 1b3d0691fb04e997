import Mksh.Cmd.Handler
import Mksh.Command.Order
import Mksh.Vtysh.Line

/-!
# Nodes

Where the shell is, what `vty->index` points to, and which version has an
architecture, go together (`Consistent`). Every handler installed in a node
keeps it so (`consistent_toolHandler`), and so does every line, whatever the
system does: it holds in every state reached, and hence every handler casts
`vty->index` to the right type (`consistent_of_reaches`).
-/

namespace Mksh

open CString Process

variable {W : Type} {os : Os W} {argv : List CString} {s s' : State (Session W)}
  {versions : List VersionInf} {i j : ℕ} {vi : VersionInf} {arch : CString} {func : ToolFunc}
  {cmdvec : NodeType → Option (List (CmdElement ToolFunc))} {node : NodeType}
  {crypt : CString → CString → Option CString}

/-! ## Installed commands -/

/-- The vectors of the nodes that are installed. -/
def installedNode : NodeType → Option (List (CmdElement ToolFunc))
  | .view | .authEnable | .config => some []
  | .enable => some enableNode
  | .version => some versionNode
  | .project => some projectNode
  | .proConf => some proConfNode
  | _ => none

/-- The vectors have been sorted. -/
def Sorted (cmdvec : NodeType → Option (List (CmdElement ToolFunc))) : Prop :=
  ∀ node, Option.Rel CmdSortNode (installedNode node) (cmdvec node)

/-- The handlers installed in a node. -/
def nodeFuncs (node : NodeType) : List ToolFunc :=
  ((installedNode node).getD []).filterMap CmdElement.func

/-- The elements of a node are those installed in it, but for their alternatives. -/
theorem Sorted.exists_mem (h : Sorted cmdvec) {table : List (CmdElement ToolFunc)}
    (htable : cmdvec node = some table) {e : CmdElement ToolFunc} (he : e ∈ table) :
    ∃ e' ∈ (installedNode node).getD [], e'.func = e.func ∧ e'.daemon = e.daemon := by
  have hrel := h node
  rw [htable] at hrel
  generalize installedNode node = o at hrel
  cases hrel with
  | some hsort =>
    refine (hsort.reordered.exists_mem (q := fun e' => e'.func = e.func ∧ e'.daemon = e.daemon)
      fun e' e'' hr => ?_).2 ⟨e, he, rfl, rfl⟩
    rw [hr.func, hr.daemon]

/-- The handlers of a node are those installed in it. -/
theorem Sorted.mem_nodeFuncs (h : Sorted cmdvec) {table : List (CmdElement ToolFunc)}
    (htable : cmdvec node = some table) {e : CmdElement ToolFunc} (he : e ∈ table)
    (hfunc : e.func = some func) : func ∈ nodeFuncs node := by
  obtain ⟨e', he', hf, -⟩ := h.exists_mem htable he
  exact List.mem_filterMap.2 ⟨e', he', hf.trans hfunc⟩

/-- No command is left to a daemon. -/
theorem Sorted.daemon_eq_zero (h : Sorted cmdvec) {table : List (CmdElement ToolFunc)}
    (htable : cmdvec node = some table) {e : CmdElement ToolFunc} (he : e ∈ table) :
    e.daemon = 0 := by
  have hzero : ∀ e' ∈ (installedNode node).getD [], e'.daemon = 0 := by
    cases node <;> decide
  obtain ⟨e', he', -, hd⟩ := h.exists_mem htable he
  rw [← hd, hzero e' he']

/-- Nothing is installed in the config node. -/
theorem Sorted.config (h : Sorted cmdvec) : cmdvec .config = some [] := by
  have hrel := h .config
  generalize cmdvec .config = o at hrel
  cases hrel with
  | some hsort => rw [List.length_eq_zero_iff.1 hsort.reordered.length_eq.symm]

/-! ## What goes together -/

/-- The version that an index denotes, or belongs to. -/
def Index.owner : Index → Option ℕ
  | .null => none
  | .version i => some i
  | .project i _ => some i

/-- The index denotes a version, or a project of a version, in the lists. -/
def Index.Valid (versions : List VersionInf) : Index → Prop
  | .null => True
  | .version i => i < versions.length
  | .project i j => ∃ vi, versions[i]? = some vi ∧ j < vi.projects.length

/-- What `vty->index` is in a node. -/
inductive GoesWith : NodeType → Index → Prop
  | enable : GoesWith .enable .null
  | version (i : ℕ) : GoesWith .version (.version i)
  | project (i j : ℕ) : GoesWith .project (.project i j)
  | proConf (i j : ℕ) : GoesWith .proConf (.project i j)

/-- At most the version `owner` has an architecture. -/
def Owned (owner : Option ℕ) (versions : List VersionInf) : Prop :=
  ∀ i vi, versions[i]? = some vi → (vi.arch ≠ [] ↔ owner = some i)

/-- The node, the index and the architectures go together. The `vty` of the
    configuration file stays where it is. -/
structure Consistent (s : State (Session W)) : Prop where
  node : GoesWith s.shell.node s.world.shellIndex
  valid : s.world.shellIndex.Valid s.world.versions
  owned : Owned s.world.shellIndex.owner s.world.versions
  file : s.file.node = .config

/-- The version that the shell is in has an architecture, and no other has. -/
theorem Consistent.owned_of_index (h : Consistent s) {index : Index}
    (hindex : s.index .shell = index) : Owned index.owner s.world.versions := hindex ▸ h.owned

/-- What only changes the system keeps the state consistent. -/
theorem Consistent.of_onlySys (h : Consistent s) (hs : OnlySys s s') : Consistent s' := by
  obtain ⟨t, rfl⟩ := hs
  exact ⟨h.node, h.valid, h.owned, h.file⟩

/-! ## Lists of versions -/

/-- A new version has no architecture, so that it changes no owner. -/
theorem Owned.append {owner : Option ℕ} (h : Owned owner versions)
    (ho : ∀ i, owner = some i → i < versions.length) (harch : vi.arch = []) :
    Owned owner (versions ++ [vi]) := by
  intro k vi' hk
  rcases Nat.lt_or_ge k versions.length with hlt | hge
  · rw [List.getElem?_append_left hlt] at hk
    exact h k vi' hk
  · obtain rfl : vi' = vi := by
      rw [List.getElem?_append_right hge, List.getElem?_singleton] at hk
      split_ifs at hk
      exact (Option.some.inj hk).symm
    exact iff_of_false (not_not.2 harch) fun hk => absurd (ho k hk) (Nat.not_lt.2 hge)

/-- The version that is entered owns an architecture. -/
theorem Owned.setArch (h : Owned none versions) (harch : arch ≠ []) :
    Owned (some i) (versions.modify i (VersionInf.setArch arch)) := by
  intro k vi' hk
  rw [List.getElem?_modify] at hk
  obtain ⟨vi, hvi, rfl⟩ := Option.map_eq_some_iff.1 hk
  by_cases hik : i = k
  · simp [hik, VersionInf.setArch, harch]
  · simp [hik, h k vi hvi]

/-- The version that is left owns none any more. -/
theorem Owned.unsetArch {owner : Option ℕ} (h : Owned owner versions)
    (ho : ∀ k, owner = some k → k = i) :
    Owned none (versions.modify i (VersionInf.setArch [])) := by
  intro k vi' hk
  rw [List.getElem?_modify] at hk
  obtain ⟨vi, hvi, rfl⟩ := Option.map_eq_some_iff.1 hk
  by_cases hik : i = k
  · simp [hik, VersionInf.setArch]
  · simpa [hik, h k vi hvi] using fun hk => hik (ho k hk).symm

/-- A new project does not matter to the architectures. -/
theorem Owned.addProject {owner : Option ℕ} (h : Owned owner versions) (pi : ProjectInf) :
    Owned owner (versions.modify i (VersionInf.addProject pi)) := by
  intro k vi' hk
  rw [List.getElem?_modify] at hk
  obtain ⟨vi, hvi, rfl⟩ := Option.map_eq_some_iff.1 hk
  by_cases hik : i = k
  · simpa [hik, VersionInf.addProject] using h k vi hvi
  · simpa [hik] using h k vi hvi

/-! ## The enable node -/

/-- The shell is in the enable node. -/
structure Idle (s : State (Session W)) : Prop where
  node : s.shell.node = .enable
  index : s.world.shellIndex = .null
  owned : Owned none s.world.versions
  file : s.file.node = .config

/-- Out of all versions, the state is consistent. -/
theorem Idle.consistent (h : Idle s) : Consistent s where
  node := by
    rw [h.node, h.index]
    exact .enable
  valid := by
    rw [h.index]
    trivial
  owned := by
    rw [h.index]
    exact h.owned
  file := h.file

/-- In the enable node, the shell is out of all versions. -/
theorem Consistent.idle (h : Consistent s) (hnode : s.shell.node = .enable) : Idle s := by
  have hgoes := h.node
  have howned := h.owned
  rw [hnode] at hgoes
  generalize hi : s.world.shellIndex = index at hgoes howned
  cases hgoes with
  | enable => exact ⟨hnode, hi, howned, h.file⟩

/-- What only changes the system does not lead into a version. -/
theorem Idle.of_onlySys (h : Idle s) (hs : OnlySys s s') : Idle s' := by
  obtain ⟨t, rfl⟩ := hs
  exact ⟨h.node, h.index, h.owned, h.file⟩

/-- Asking for a version does not lead into it. -/
theorem idle_versionGet (h : Idle s) {name : CString} {r : Option ℕ}
    (hr : (versionGet os name).result s = some (r, s')) : Idle s' := by
  rcases versionGet_spec name s r s' hr with ⟨-, hs⟩ | ⟨i, -, rfl, -⟩ | ⟨-, hs⟩
  · exact h.of_onlySys hs.onlySys
  · exact h
  · have hadd : Idle (s.addVersion (versionCreate name)) :=
      ⟨h.node, h.index, h.owned.append (fun _ hi => nomatch hi) rfl, h.file⟩
    exact hadd.of_onlySys hs.onlySys

/-- A version is entered, but for the node and the index. -/
structure Entering (i : ℕ) (s : State (Session W)) : Prop where
  node : s.shell.node = .enable
  index : s.world.shellIndex = .null
  lt_length : i < s.world.versions.length
  owned : Owned (some i) s.world.versions
  file : s.file.node = .config

/-- What only changes the system goes on entering. -/
theorem Entering.of_onlySys (h : Entering i s) (hs : OnlySys s s') : Entering i s' := by
  obtain ⟨t, rfl⟩ := hs
  exact ⟨h.node, h.index, h.lt_length, h.owned, h.file⟩

/-- Initialising a version gives it an architecture, or fails. -/
theorem idle_versionInit (h : Idle s) {ret : ℤ} (harch : arch ≠ [])
    (hr : (versionInit os i arch).result s = some (ret, s')) :
    (ret ≠ 0 → Idle s') ∧ (ret = 0 → Entering i s') := by
  obtain ⟨vi, hvi, hinit⟩ := versionInit_spec i arch s ret s' hr
  cases hinit with
  | stays w => exact ⟨fun _ => h.of_onlySys ⟨_, rfl⟩, fun hret => absurd hret (by decide)⟩
  | refused w' hd => exact ⟨fun _ => h.of_onlySys ⟨_, rfl⟩, fun hret => absurd hret (by decide)⟩
  | entered w' hd hacc hsets =>
    -- In the enable node no version has an architecture, so now only this one does.
    refine ⟨fun hret => absurd rfl hret, fun _ => ⟨h.node, h.index, ?_, h.owned.setArch harch,
      h.file⟩⟩
    exact (List.getElem?_eq_some_iff.1 hvi).1.trans_eq (List.length_modify _ _ _).symm

/-- Leaving a version takes the architecture away. -/
theorem versionFinit_owned {owner : Option ℕ} (howned : Owned owner s.world.versions)
    (ho : ∀ k, owner = some k → k = i) (hr : (versionFinit os i).result s = some ((), s')) :
    s'.shell = s.shell ∧ s'.file = s.file ∧ s'.world.shellIndex = s.world.shellIndex ∧
      Owned none s'.world.versions := by
  obtain ⟨vi, t, hvi, -, rfl⟩ := versionFinit_spec i s () s' hr
  exact ⟨rfl, rfl, rfl, howned.unsetArch ho⟩

/-- Leaving a version for the enable node. -/
theorem idle_leave {owner : Option ℕ} (howned : Owned owner s.world.versions)
    (ho : ∀ k, owner = some k → k = i) (hfile : s.file.node = .config)
    (hr : (versionFinit os i).result s = some ((), s')) :
    Idle ((s'.setIndex .shell .null).setNode .shell .enable) := by
  obtain ⟨-, hf, -, hnone⟩ := versionFinit_owned howned ho hr
  exact ⟨rfl, rfl, hnone, (congrArg Vty.node hf).trans hfile⟩

/-! ## Handlers -/

/-- Getting a version stays in the enable node, or enters the version. -/
theorem GetsVersion.idle_or_entering {name : CString} (h : Idle s) (hargv : ∀ w ∈ argv, w ≠ [])
    (hget : GetsVersion os .shell argv name s s') : Idle s' ∨ ∃ i arch s₁ s₂ s₃,
      (versionInit os i arch).result s₁ = some (0, s₂) ∧ OnlyWorld s₂ s₃ ∧ Entering i s₃ ∧
      s' = (s₃.setIndex .shell (.version i)).setNode .shell .version := by
  cases hget with
  | unknown hr => exact .inl (idle_versionGet h hr)
  | failed hr harch hinit hret =>
    have harch := hargv _ (List.mem_of_getElem? harch)
    exact .inl ((idle_versionInit (idle_versionGet h hr) harch hinit).1 hret)
  | left hr harch hinit hs hfinit =>
    have harch := hargv _ (List.mem_of_getElem? harch)
    have hentering := ((idle_versionInit (idle_versionGet h hr) harch hinit).2 rfl).of_onlySys
      hs.onlySys
    -- The version that is left is the only one with an architecture, and the node and
    -- the index have not been set yet.
    obtain ⟨hshell, hfile, hindex, hnone⟩ :=
      versionFinit_owned hentering.owned (fun k hk => (Option.some.inj hk).symm) hfinit
    exact .inl ⟨(congrArg Vty.node hshell).trans hentering.node, hindex.trans hentering.index,
      hnone, (congrArg Vty.node hfile).trans hentering.file⟩
  | @entered i arch s₁ s₂ s₃ hr harch hinit hs =>
    have harch := hargv _ (List.mem_of_getElem? harch)
    have hentering := ((idle_versionInit (idle_versionGet h hr) harch hinit).2 rfl).of_onlySys
      hs.onlySys
    exact .inr ⟨i, arch, s₁, s₂, s₃, hinit, hs, hentering, rfl⟩

/-- `version` leads to a consistent state, whether the version is entered or not. -/
theorem consistent_getVersion (h : Idle s) (hargv : ∀ w ∈ argv, w ≠ []) :
    Ensures (getVersion os .shell argv) (fun _ => Consistent) s := by
  refine (getVersion_spec s).mono ?_
  rintro ret s' ⟨-, name, -, hget⟩
  rcases hget.idle_or_entering h hargv with hidle | ⟨i, _, _, _, s₃, -, -, hentering, rfl⟩
  · exact hidle.consistent
  · exact ⟨.version i, hentering.lt_length, hentering.owned, hentering.file⟩

/-- `project` leads to a consistent state. -/
theorem consistent_getProject (h : Consistent s) :
    Ensures (getProject os .shell argv) (fun _ => Consistent) s := by
  refine (getProject_spec s).mono ?_
  rintro ret s' ⟨i, name, hi, -, hget⟩
  -- A project that is added is the last of its version, so that the others stay where
  -- they are, and no architecture changes.
  have hkeeps {r : Option ℕ} {s₁ : State (Session W)}
      (hr : (projectGet os name i).result s = some (r, s₁)) : Consistent s₁ ∧
      s₁.index .shell = .version i := by
    obtain ⟨vi, hvi, ⟨-, hs⟩ | ⟨j, -, rfl, -⟩ | ⟨-, w, rfl⟩⟩ := projectGet_spec name i s r s₁ hr
    · obtain ⟨w, rfl⟩ := hs
      exact ⟨h.of_onlySys ⟨_, rfl⟩, hi⟩
    · exact ⟨h, hi⟩
    · refine ⟨⟨h.node, ?_, h.owned.addProject _, h.file⟩, hi⟩
      change Index.Valid _ (s.index .shell)
      rw [hi]
      exact (List.getElem?_eq_some_iff.1 hvi).1.trans_eq (List.length_modify _ _ _).symm
  cases hget with
  | unknown hr => exact (hkeeps hr).1
  | failed hr _ _ _ _ => exact (hkeeps hr).1.of_onlySys ⟨_, rfl⟩
  | @entered j s₁ vi pi refresh t hr hvi hpi _ =>
    obtain ⟨hc, hi⟩ := hkeeps hr
    have howned : Owned (some i) s₁.world.versions := hc.owned_of_index hi
    exact ⟨.project i j, ⟨vi, hvi, (List.getElem?_eq_some_iff.1 hpi).1⟩, howned, hc.file⟩

/-- The owner of the index leaves. -/
theorem consistent_versionExit (h : Consistent s) :
    Ensures (versionExit os .shell) (fun _ => Consistent) s := by
  refine (versionExit_spec s).mono ?_
  rintro ret s' ⟨-, i, s₁, hi, hfinit, rfl⟩
  have ho (k : ℕ) (hk : some i = some k) : k = i := (Option.some.inj hk).symm
  exact (idle_leave (h.owned_of_index hi) ho h.file hfinit).consistent

/-- `end` leads to a consistent state. -/
theorem consistent_projectEnd (h : Consistent s) :
    Ensures (projectEnd os .shell) (fun _ => Consistent) s := by
  refine (projectEnd_spec s).mono ?_
  rintro ret s' ⟨-, i, j, t, s₁, hi, hfinit, rfl⟩
  have ho (k : ℕ) (hk : some i = some k) : k = i := (Option.some.inj hk).symm
  exact (idle_leave (s := { s with world.sys := t }) (h.owned_of_index hi) ho h.file
    hfinit).consistent

/-- `exit` in a project leads to a consistent state. -/
theorem consistent_projectExit (h : Consistent s) :
    Ensures (projectExit os .shell) (fun _ => Consistent) s := by
  refine (projectExit_spec s).mono ?_
  rintro ret s' ⟨-, i, j, vi, pi, t, hi, hvi, -, -, rfl⟩
  have howned : Owned (some i) s.world.versions := h.owned_of_index hi
  exact ⟨.version i, (List.getElem?_eq_some_iff.1 hvi).1, howned, h.file⟩

/-- The configuration of a project goes with the project. -/
theorem consistent_projectConf (h : Consistent s) (hnode : s.shell.node = .project) :
    Ensures (projectConf (W := W) .shell) (fun _ => Consistent) s := by
  rw [projectConf, ensures_bind, ensures_setNode, ensures_pure]
  have hgoes := h.node
  rw [hnode] at hgoes
  refine ⟨?_, h.valid, h.owned, h.file⟩
  change GoesWith .proConf s.world.shellIndex
  generalize s.world.shellIndex = index at hgoes
  cases hgoes with
  | project i j => exact .proConf i j

/-- Leaving the configuration of a project leads back to it. -/
theorem consistent_proConfExit (h : Consistent s) (hnode : s.shell.node = .proConf) :
    Ensures (proConfExit (W := W) .shell) (fun _ => Consistent) s := by
  rw [proConfExit, ensures_bind, ensures_setNode, ensures_pure]
  have hgoes := h.node
  rw [hnode] at hgoes
  refine ⟨?_, h.valid, h.owned, h.file⟩
  change GoesWith .project s.world.shellIndex
  generalize s.world.shellIndex = index at hgoes
  cases hgoes with
  | proConf i j => exact .project i j

/-- What is only installed in one node. -/
theorem node_of_mem (h : func ∈ nodeFuncs node) : (func = .getVersion → node = .enable) ∧
    (func = .projectConf → node = .project) ∧ (func = .proConfExit → node = .proConf) := by
  revert func
  cases node <;> decide

/-- Every handler installed in the node keeps the state consistent. -/
theorem consistent_toolHandler (h : Consistent s) (hfunc : func ∈ nodeFuncs s.shell.node)
    (hargv : ∀ w ∈ argv, w ≠ []) :
    Ensures (toolHandler os .shell argv func) (fun _ => Consistent) s := by
  by_cases hmover : func ∈ movers
  · obtain ⟨henable, hproject, hproConf⟩ := node_of_mem hfunc
    simp only [movers, List.mem_cons, List.not_mem_nil, or_false] at hmover
    rcases hmover with rfl | rfl | rfl | rfl | rfl | rfl | rfl | rfl | rfl | rfl
    · exact consistent_getVersion (h.idle (henable rfl)) hargv
    · exact consistent_getProject h
    · exact consistent_versionExit h
    · exact consistent_projectExit h
    · exact consistent_projectEnd h
    · exact consistent_projectConf h (hproject rfl)
    · exact consistent_proConfExit h (hproConf rfl)
    · exact (moves_projectCmdRefresh s).mono fun _ _ => h.of_onlySys
    · exact (moves_versionBuildTool s).mono fun _ _ => h.of_onlySys
    · exact (moves_projectMakeInstallOrClean s).mono fun _ _ => h.of_onlySys
  · exact (moves_toolHandler hmover s).mono fun _ _ hs => h.of_onlySys hs.onlySys

/-! ## Lines -/

/-- The shell never asks for a password. -/
theorem Consistent.node_ne_authEnable (h : Consistent s) : s.shell.node ≠ .authEnable := by
  have hgoes := h.node
  intro hnode
  rw [hnode] at hgoes
  cases hgoes

/-- What a line keeps: what the handler it calls does, and what a handler that
    only changes the world does, which may be called twice. -/
theorem ensures_cliShell {I : State (Session W) → Prop} {line : CString} (hsorted : Sorted cmdvec)
    (h : Consistent s) (hworld : ∀ s', OnlyWorld s s' → I s')
    (hcall : ∀ e argv func, (cliShell os cmdvec crypt).Calls line s e argv → e.func = some func →
      func ∈ nodeFuncs s.shell.node → (∀ w ∈ argv, w ≠ []) →
        Ensures (toolHandler os .shell argv func) (fun _ => I) s) :
    Ensures ((cliShell os cmdvec crypt).vtyshExecute line) (fun _ => I) s := by
  refine Shell.ensures_vtyshExecute h.node_ne_authEnable
    (fun table htable e he => hsorted.daemon_eq_zero htable he) (hworld s (refl s)) ?_
  intro e argv hcalls func hfunc ret s' hret
  obtain ⟨⟨table, htable, he⟩, hargv⟩ := hcalls.mem
  have hmem := hsorted.mem_nodeFuncs htable he hfunc
  refine ⟨fun _ => hcall e argv func hcalls hfunc hmem hargv ret s' hret, ?_⟩
  rintro rfl ret' s'' hret'
  -- A handler that returns the status of a child process only changes the world.
  have hmover : func ∉ movers := fun hm => ensures_ne_daemon hm s _ s' hret rfl
  have hs' : OnlyWorld s s' := moves_toolHandler hmover s _ s' hret
  exact hworld s'' (trans_of OnlyWorld hs' (moves_toolHandler hmover s' ret' s'' hret'))

/-- Every line keeps the state consistent. -/
theorem consistent_vtyshExecute (hsorted : Sorted cmdvec) (h : Consistent s) (line : CString) :
    Ensures ((cliShell os cmdvec crypt).vtyshExecute line) (fun _ => Consistent) s :=
  ensures_cliShell hsorted h (fun _ hs => h.of_onlySys hs.onlySys)
    fun _ _ _ _ _ hfunc hargv => consistent_toolHandler h hfunc hargv

/-! ## Runs -/

/-- The state at the start is consistent. -/
theorem consistent_bootState (dirs : List (CString × List CString)) (t : Sys W) :
    Consistent (bootState dirs t) := by
  refine ⟨.enable, trivial, fun i vi hi => ?_, rfl⟩
  obtain ⟨dir, -, rfl⟩ := List.mem_map.1 (List.mem_of_getElem? hi)
  exact iff_of_false (fun h => h rfl) (fun h => nomatch h)

/-- What a handler casts `vty->index` to is right: it is a version in the list, or
    a project in the list of its version. -/
def RightCast (versions : List VersionInf) : ToolEvent → Prop
  | .cast .version index => ∃ i, index = .version i ∧ index.Valid versions
  | .cast .project index => ∃ i j, index = .project i j ∧ index.Valid versions
  | _ => True

/-- The handlers of a node cast to what goes with the node. -/
theorem castType_of_mem (h : func ∈ nodeFuncs node) :
    (func.castType = some .version → node = .version) ∧
      (func.castType = some .project → node = .project ∨ node = .proConf) := by
  revert func
  cases node <;> decide

/-- Every handler installed in the node casts to the right type. -/
theorem logs_rightCast (h : Consistent s) (hfunc : func ∈ nodeFuncs s.shell.node) :
    Logs (RightCast s.world.versions) (toolHandler os .shell argv func) s := by
  intro e he
  have hcasts := logs_castsAs os .shell argv func s e he
  obtain ⟨hversion, hproject⟩ := castType_of_mem hfunc
  have hgoes := h.node
  have hvalid := h.valid
  cases e with
  | sys e => trivial
  | print text => trivial
  | cast type index =>
    obtain ⟨htype, rfl⟩ := hcasts
    change RightCast _ (.cast type s.world.shellIndex)
    -- The handler casts to the type of its node, which is the one that the index goes with.
    generalize s.world.shellIndex = index at hgoes hvalid
    cases type with
    | version =>
      rw [hversion htype] at hgoes
      cases hgoes with
      | version i => exact ⟨i, rfl, hvalid⟩
    | project =>
      rcases hproject htype with hnode | hnode
      · rw [hnode] at hgoes
        cases hgoes with
        | project i j => exact ⟨i, j, rfl, hvalid⟩
      · rw [hnode] at hgoes
        cases hgoes with
        | proConf i j => exact ⟨i, j, rfl, hvalid⟩

/-- In every state reached after the start, the node, the index and the
    architectures go together, and the handlers of the node cast to the right type. -/
theorem consistent_of_reaches (hsorted : Sorted cmdvec) (dirs : List (CString × List CString))
    (t : Sys W) (file : Option CString) {ret : ℤ} {s₀ : State (Session W)}
    (hstart : ((cliShell os cmdvec crypt).vtyshConfigFromFile file).result (bootState dirs t) =
      some (ret, s₀))
    (h : (cliShell os cmdvec crypt).Reaches (fun _ _ => True) s₀ s) :
    Consistent s ∧ ∀ func ∈ nodeFuncs s.shell.node, ∀ argv,
      Logs (RightCast s.world.versions) (toolHandler os .shell argv func) s := by
  have hline (line : CString) (s : State (Session W)) (hs : Consistent s) :
      Ensures ((cliShell os cmdvec crypt).vtyshExecute line) (fun _ => Consistent) s :=
    consistent_vtyshExecute hsorted hs line
  have hs₀ : Consistent s₀ :=
    Shell.ensures_vtyshConfigFromFile hsorted.config (fun s hs => hs.file) (hline _) (hline _) file
      (consistent_bootState dirs t) ret s₀ hstart
  have hs : Consistent s := h.invariant hs₀ fun line s hs _ => hline line s hs
  exact ⟨hs, fun func hfunc argv => logs_rightCast hs hfunc⟩

/-- The nodes, sorted. -/
def sortedNode (node : NodeType) : Option (List (CmdElement ToolFunc)) :=
  (installedNode node).map cmdSortNode

/-- The vectors that sorting gives are sorted ones. -/
theorem sorted_sortedNode : Sorted sortedNode := by
  have hne : ∀ node, ∀ e ∈ (installedNode node).getD [], e.strvec ≠ [] := by
    intro node
    cases node <;> decide
  intro node
  have hnode := hne node
  rw [sortedNode]
  generalize installedNode node = o at hnode
  rcases o with _ | table
  · exact .none
  · exact .some (cmdSortNode_spec hnode)

/-- A shell of which the root directory has a version with a project. -/
def permissiveShell : Shell ToolFunc (Session Unit) :=
  cliShell .permissive sortedNode fun _ _ => none

/-- The state at the start, with a version and a project in the directories, on a system on
    which all commands succeed. -/
def permissiveBoot : State (Session Unit) :=
  bootState [("trunk".toList, ["kernel".toList])] ⟨[], fun _ => none, ()⟩

/-- A project has been entered, and all of its handlers cast as they should. -/
theorem consistent_of_reaches_kernel : ∃ s : State (Session Unit), s.shell.node = .project ∧
    Consistent s ∧ ∀ func ∈ nodeFuncs s.shell.node, ∀ argv,
      Logs (RightCast s.world.versions) (toolHandler .permissive .shell argv func) s := by
  have hafter : (permissiveShell.afterLines
      ["version trunk soho".toList, "project kernel".toList] permissiveBoot).any
        fun s => s.shell.node = .project := by decide +kernel
  obtain ⟨s, hs, hnode⟩ := (Option.any_eq_true _ _).1 hafter
  exact ⟨s, of_decide_eq_true hnode, consistent_of_reaches sorted_sortedNode
    [("trunk".toList, ["kernel".toList])] ⟨[], fun _ => none, ()⟩ none rfl
    (Shell.Reaches.start.afterLines (fun _ _ => trivial) hs)⟩

end Mksh
