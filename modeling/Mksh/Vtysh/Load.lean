import Mksh.Command.Pieces
import Mksh.Vtysh.Line

/-!
# Loading a file

What loading a file offers to the executor: the vector of each piece read, in the
node that the `vty` of the file is then in, if there is a vector
(`Shell.firstAttempts`). A line is tried again when that fails, which is no first
attempt. Whatever the executor does, the vectors are those of the pieces, up to the
one with which it ends the program, if it does (`Shell.Offers`).
-/

namespace Mksh

open CString Process

variable {F W : Type}

/-! ## Reading pieces -/

namespace Shell

/-- A line ends at its newline, and the next one starts with an empty buffer. -/
theorem fgetsLines_append (size room : ℕ) (cur u rest : CString) :
    fgetsLines size room cur (u ++ '\n' :: rest) =
      fgetsLines size room cur (u ++ ['\n']) ++ fgetsLines size size [] rest := by
  induction u generalizing room cur with
  | nil => simp [fgetsLines]
  | cons c u ih =>
    rw [List.cons_append, List.cons_append, fgetsLines, fgetsLines]
    split_ifs
    · rw [ih, List.cons_append]
    · exact ih _ _

/-- A line that ends is read on its own. -/
theorem configLines_append (u rest : CString) :
    configLines (u ++ '\n' :: rest) = configLines (u ++ ['\n']) ++ configLines rest :=
  fgetsLines_append _ _ _ _ _

/-- No character of the file is lost. -/
theorem flatten_fgetsLines (size room : ℕ) (cur file : CString) :
    (fgetsLines size room cur file).flatten = cur ++ file := by
  induction file generalizing room cur with
  | nil =>
    rw [fgetsLines]
    split_ifs with hcur
    · rw [hcur]
      rfl
    · simp
  | cons c file ih =>
    rw [fgetsLines]
    split_ifs
    · rw [List.flatten_cons, ih, List.append_assoc]
      rfl
    · rw [ih, List.append_assoc]
      rfl

/-- Nothing is lost. -/
theorem flatten_configLines (file : CString) : (configLines file).flatten = file :=
  flatten_fgetsLines _ _ _ _

/-- A line that fits is read at once. -/
theorem fgetsLines_of_length {size room : ℕ} {cur u : CString} (hu : '\n' ∉ u)
    (hlen : u.length < room) : fgetsLines size room cur (u ++ ['\n']) = [cur ++ u ++ ['\n']] := by
  induction u generalizing room cur with
  | nil => simp [fgetsLines]
  | cons c u ih =>
    rw [List.mem_cons, not_or] at hu
    rw [List.length_cons] at hlen
    rw [List.cons_append, fgetsLines, if_neg, ih hu.2 (by omega)]
    · simp
    · rintro (rfl | hroom)
      · exact hu.1 rfl
      · omega

/-- A short line is read at once. -/
theorem configLines_of_length {u : CString} (hu : '\n' ∉ u) (hlen : u.length < vtyBufsiz - 1) :
    configLines (u ++ ['\n']) = [u ++ ['\n']] :=
  fgetsLines_of_length hu hlen

end Shell

/-! ## First attempts -/

/-- The comments of a configuration file, marked either way. -/
theorem cmdMakeStrvec_of_mark {buf : CString} {c : Char} (h : buf.head? = some c)
    (hc : c = '!' ∨ c = '#') : cmdMakeStrvec buf = none := by
  obtain ⟨cs, rfl⟩ := List.head?_eq_some_iff.1 h
  have hstart : start [c] = some c := by
    rcases hc with rfl | rfl
    · rfl
    · rfl
  rw [cmdMakeStrvec_eq_none_iff, ← List.singleton_append, start_append_of_comment hstart hc]
  rintro b ⟨⟩
  exact hc

namespace Shell

variable {sh : Shell F W} {s s' : State W} {buf : CString} {vline : List CString}

/-- What a piece offers to the executor, and the node of the `vty` then. -/
def firstAttempt (buf : CString) (s : State W) : Option (List CString × NodeType) :=
  if buf.head? = some '#' then none
  else (cmdMakeStrvec buf).map fun vline =>
    (vline, if buf.head? = some '!' then .config else s.file.node)

/-- What loading a file offers to the executor. -/
def firstAttempts (sh : Shell F W) (file : CString) (s : State W) :
    List (List CString × NodeType) :=
  (entries sh.vtyshConfigLine (configLines file) s).filterMap fun p => firstAttempt p.1 p.2

/-- The first attempt for a line is made with its words, at the node that is reached. -/
theorem firstAttempt_eq (buf : CString) (s : State W) :
    firstAttempt buf s = (cmdMakeStrvec buf).map fun vline => (vline, s.file.node) := by
  rw [firstAttempt]
  split_ifs with hhash hbang
  · rw [cmdMakeStrvec_of_mark hhash (.inr rfl)]
    rfl
  · rw [cmdMakeStrvec_of_mark hbang (.inl rfl)]
    rfl
  · rfl

/-- A piece with a vector is executed, in the state there is. -/
theorem vtyshConfigLine_of_some (h : cmdMakeStrvec buf = some vline) (s : State W) :
    sh.vtyshConfigLine buf s = sh.executeConfig buf vline s := by
  have hmark {c : Char} (hc : c = '!' ∨ c = '#') : buf.head? ≠ some c := by
    intro hhead
    rw [cmdMakeStrvec_of_mark hhead hc] at h
    cases h
  rw [vtyshConfigLine, if_neg (hmark (.inr rfl)), if_neg (hmark (.inl rfl)), h]

/-- A piece without one only sets the node, if it does anything. -/
theorem vtyshConfigLine_of_none (h : cmdMakeStrvec buf = none) (s : State W) :
    ∃ s', (sh.vtyshConfigLine buf).result s = some (⟨⟩, s') ∧ s'.shell = s.shell ∧
      (s.file.node = .config → s'.file.node = .config) ∧
      (buf.head? = some '!' → s'.file.node = .config) := by
  rw [vtyshConfigLine, h]
  split_ifs with hhash hbang
  · refine ⟨s, rfl, rfl, id, fun hbang => ?_⟩
    rw [hhash] at hbang
    exact absurd (Option.some.inj hbang) (by decide)
  · exact ⟨{ s with file.node := .config }, rfl, rfl, fun _ => rfl, fun _ => rfl⟩
  · exact ⟨s, rfl, rfl, id, fun h => absurd h hbang⟩

/-- Pieces offer vectors, and lead to a state, unless the executor ends the program. -/
structure Offers (sh : Shell F W) (pieces : List CString) (s : State W)
    (attempts : List (List CString × NodeType)) (r : Option (State W)) : Prop where
  attempts_eq : (entries sh.vtyshConfigLine pieces s).filterMap
    (fun p => firstAttempt p.1 p.2) = attempts
  result_eq : (forEach sh.vtyshConfigLine pieces).result s = r.map fun s' => (⟨⟩, s')

namespace Offers

variable {pieces pieces' : List CString} {attempts attempts' : List (List CString × NodeType)}
  {r : Option (State W)}

theorem nil (sh : Shell F W) (s : State W) : sh.Offers [] s [] (some s) := ⟨rfl, rfl⟩

theorem append (h : sh.Offers pieces s attempts (some s'))
    (h' : sh.Offers pieces' s' attempts' r) :
    sh.Offers (pieces ++ pieces') s (attempts ++ attempts') r := by
  obtain ⟨hresult, hentries⟩ := forEach_append_of_some h.result_eq pieces'
  refine ⟨?_, hresult.trans h'.result_eq⟩
  rw [hentries, List.filterMap_append, h.attempts_eq, h'.attempts_eq]

/-- Once the program has ended, nothing more is offered. -/
theorem append_none (h : sh.Offers pieces s attempts none) (pieces' : List CString) :
    sh.Offers (pieces ++ pieces') s attempts none := by
  obtain ⟨hresult, hentries⟩ := forEach_append_of_none h.result_eq pieces'
  exact ⟨by rw [hentries, h.attempts_eq], hresult⟩

/-- A line without words offers nothing; a comment leads back to the node of the start. -/
theorem of_none (sh : Shell F W) (h : cmdMakeStrvec buf = none) (s : State W) :
    ∃ s', sh.Offers [buf] s [] (some s') ∧ (s.file.node = .config → s'.file.node = .config) ∧
      (buf.head? = some '!' → s'.file.node = .config) := by
  obtain ⟨s', hresult, -, hnode⟩ := vtyshConfigLine_of_none h s
  refine ⟨s', ⟨?_, ?_⟩, hnode⟩
  · rw [entries_singleton, List.filterMap_cons_none (by rw [firstAttempt_eq, h]; rfl)]
    rfl
  · rw [forEach, result_bind_of_some hresult]
    rfl

/-- A line with words offers them. -/
theorem of_some (sh : Shell F W) (h : cmdMakeStrvec buf = some vline) (s : State W) :
    ∃ r, sh.Offers [buf] s [(vline, s.file.node)] r := by
  refine ⟨((sh.vtyshConfigLine buf).result s).map Prod.snd, ?_, ?_⟩
  · rw [entries_singleton, List.filterMap_cons_some (by rw [firstAttempt_eq, h]; rfl)]
    rfl
  · rcases hresult : (sh.vtyshConfigLine buf).result s with _ | ⟨_, s'⟩
    · rw [forEach, result_bind_of_none hresult]
      rfl
    · rw [forEach, result_bind_of_some hresult]
      rfl

/-- Pieces that make no vectors offer none. -/
theorem of_forall_none (sh : Shell F W) (h : ∀ p ∈ pieces, cmdMakeStrvec p = none)
    (s : State W) :
    ∃ s', sh.Offers pieces s [] (some s') ∧
      (s.file.node = .config → s'.file.node = .config) := by
  induction pieces generalizing s with
  | nil => exact ⟨s, nil sh s, id⟩
  | cons p pieces ih =>
    obtain ⟨s₁, hp, hnode, -⟩ := of_none sh (h p List.mem_cons_self) s
    obtain ⟨s', hpieces, hnode'⟩ := ih (fun q hq => h q (List.mem_cons_of_mem _ hq)) s₁
    exact ⟨s', hp.append hpieces, fun hconfig => hnode' (hnode hconfig)⟩

/-- Pieces one of which makes a vector offer it, in the config node if the file is in
    that node before. -/
theorem of_one (sh : Shell F W) {pre post : List CString} (h : cmdMakeStrvec buf = some vline)
    (hnone : ∀ p ∈ pre ++ post, cmdMakeStrvec p = none) (s : State W) :
    ∃ node r, sh.Offers (pre ++ buf :: post) s [(vline, node)] r ∧
      (s.file.node = .config → node = .config) := by
  obtain ⟨s₁, hpre, hnode⟩ := of_forall_none sh
    (fun p hp => hnone p (List.mem_append_left _ hp)) s
  obtain ⟨r, hbuf⟩ := of_some sh h s₁
  refine ⟨s₁.file.node, ?_⟩
  rcases r with _ | s₂
  · exact ⟨none, hpre.append (hbuf.append_none post), hnode⟩
  · obtain ⟨s₃, hpost, -⟩ := of_forall_none sh
      (fun p hp => hnone p (List.mem_append_right _ hp)) s₂
    exact ⟨some s₃, hpre.append (hbuf.append hpost), hnode⟩

/-- When loading does not end, the vectors offered are those of the pieces. -/
theorem vectors_eq (h : sh.Offers pieces s attempts (some s')) :
    attempts.map Prod.fst = pieces.filterMap cmdMakeStrvec := by
  rw [← h.attempts_eq, List.map_filterMap]
  conv_rhs => rw [← map_fst_entries h.result_eq, List.filterMap_map]
  refine List.filterMap_congr fun p _ => ?_
  rw [firstAttempt_eq, Option.map_map, Function.comp_apply]
  exact Option.map_id'

/-- Loading a file goes as its pieces go. -/
theorem vtyshConfigFromFile {file : CString} (h : sh.Offers (configLines file) s attempts r) :
    sh.firstAttempts file s = attempts ∧
      ((sh.vtyshConfigFromFile (some file)).result s).isSome = r.isSome := by
  refine ⟨h.attempts_eq, ?_⟩
  rw [Shell.vtyshConfigFromFile]
  rcases r with _ | s'
  · rw [result_bind_of_none h.result_eq]
    rfl
  · rw [result_bind_of_some h.result_eq]
    rfl

end Offers

/-! ## A shell without commands -/

/-- A shell whose nodes have no commands: every line fails. -/
def bare : Shell Empty Unit where
  cmdvec _ := some []
  handler f := f.elim
  crypt _ _ := none

section Bare

variable {s : State Unit} {ref : VtyRef}

/-- Without commands, an executor returns an error. -/
theorem achieves_bare_cmdExecute {cls : CString → CString → MatchType} (vline : List CString)
    {Q : ℤ × Option (CmdElement Empty) → State Unit → Prop}
    (h : ∀ ret, IsError ret → Q (ret, none) s) :
    Achieves (bare.cmdExecute (cmdExecuteWith (filterBy cls)) ref vline) Q s := by
  obtain ⟨ret, hret⟩ := exists_returns_of_nil (F := Empty) cls vline
  have hdispatch : bare.dispatch (cmdExecuteWith (filterBy cls)) ref vline s =
      some (.returns ret) := congrArg some hret
  rw [cmdExecute, achieves_bind, achieves_get, hdispatch]
  exact achieves_pure.2 (h ret (isError_of_returns hret))

/-- A typed line changes nothing then. -/
theorem achieves_bare_vtyshExecute (hnode : s.shell.node ≠ .authEnable) (line : CString) :
    Achieves (bare.vtyshExecute line) (fun _ s' => s' = s) s := by
  rw [vtyshExecute, achieves_bind, achieves_get, if_neg hnode, vtyshExecuteFunc]
  rcases cmdMakeStrvec line with _ | vline
  · exact achieves_pure.2 rfl
  refine achieves_bind.2 (achieves_bare_cmdExecute vline fun ret hret => ?_)
  have hreport : Achieves (bare.reportExecute ret none) (fun _ s' => s' = s) s := by
    rw [reportExecute, if_neg hret.ne.2.1]
    split_ifs
    all_goals first
      | exact achieves_pure.2 rfl
      | exact achieves_emit.2 rfl
  refine achieves_bind.2 (hreport.mono fun _ s' hs' => ?_)
  exact achieves_pure.2 hs'

/-- A line is tried twice. -/
theorem achieves_bare_executeConfig (hnode : s.shell.node ≠ .authEnable) (buf : CString)
    (vline : List CString) :
    Achieves (bare.executeConfig buf vline) (fun _ s' => s'.shell = s.shell) s := by
  rw [executeConfig, achieves_bind]
  refine achieves_bare_cmdExecute vline fun ret hret => ?_
  dsimp only
  rw [if_pos hret.ne, retryConfig, achieves_bind]
  refine (achieves_bare_vtyshExecute hnode _).mono fun _ s₁ hs₁ => ?_
  subst hs₁
  refine achieves_bind.2 ((achieves_bare_vtyshExecute hnode _).mono fun _ s₂ hs₂ => ?_)
  subst hs₂
  refine achieves_bind.2 (achieves_modify.2 (achieves_bind.2 ?_))
  refine achieves_bare_cmdExecute vline fun ret' hret' => ?_
  dsimp only
  rw [reportConfig, if_neg hret'.ne.2.1]
  split_ifs
  all_goals first
    | exact achieves_pure.2 rfl
    | exact achieves_emit.2 rfl

/-- A line of the file may change the node of the file only. -/
theorem achieves_bare_vtyshConfigLine (hnode : s.shell.node ≠ .authEnable) (buf : CString) :
    Achieves (bare.vtyshConfigLine buf) (fun _ s' => s'.shell = s.shell) s := by
  rcases h : cmdMakeStrvec buf with _ | vline
  · obtain ⟨s', hresult, hshell, -⟩ := vtyshConfigLine_of_none h s
    exact ⟨⟨⟩, s', hresult, hshell⟩
  · have hexecute : (bare.vtyshConfigLine buf).result s = (bare.executeConfig buf vline).result s :=
      congrArg Prod.snd (vtyshConfigLine_of_some h s)
    rw [Achieves, hexecute]
    exact achieves_bare_executeConfig hnode buf vline

/-- Loading ends, whatever the pieces. -/
theorem exists_offers_bare (hnode : s.shell.node ≠ .authEnable) (pieces : List CString) :
    ∃ attempts s', bare.Offers pieces s attempts (some s') := by
  have hloop : ∃ s', (forEach bare.vtyshConfigLine pieces).result s = some (⟨⟩, s') := by
    induction pieces generalizing s with
    | nil => exact ⟨s, rfl⟩
    | cons buf pieces ih =>
      obtain ⟨_, s₁, hresult, hshell⟩ := achieves_bare_vtyshConfigLine hnode buf
      obtain ⟨s', hs'⟩ := ih (hshell ▸ hnode)
      exact ⟨s', (result_bind_of_some hresult).trans hs'⟩
  obtain ⟨s', hs'⟩ := hloop
  exact ⟨_, s', rfl, hs'⟩

end Bare

end Shell

end Mksh
