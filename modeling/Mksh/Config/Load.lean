import Mksh.Config.Basic
import Mksh.Vtysh.Load

/-!
# Loading what was dumped

A dump is made of texts, each ending its line (`Written`). Loading it offers to the
executor the vectors of the lines dumped, each once and in order, the names in the
config node, exactly if of the pieces in which a text is read, one makes the vector of
its line, and the others make none (`load_replays_iff`). That is so of a text that fits
the buffer (`Written.whole_of_length`).
-/

namespace Mksh

open CString Process

/-! ## Texts -/

/-- What is written: a mark, or a line of `config_top`, a name, or a line of a
    configuration. -/
inductive Written
  | mark
  | top (line : CString)
  | name (name : CString)
  | line (line : CString)
  deriving DecidableEq

namespace Written

/-- The text of a line that is written. -/
def text : Written → CString
  | .mark => ['!', '\n']
  | .top l => l ++ newline
  | .name l => l ++ newline
  | .line l => ' ' :: l ++ newline

/-- The line that is written. -/
def content : Written → Option CString
  | .mark => none
  | .top l => some l
  | .name l => some l
  | .line l => some l

/-- The line is the name of a configuration. -/
def isName : Written → Bool
  | .name _ => true
  | _ => false

/-- What is to be offered to the executor, and whether in the config node. -/
def wanted (w : Written) : Option (List CString × Bool) :=
  (w.content.bind cmdMakeStrvec).map fun vline => (vline, w.isName)

/-- One of the pieces in which the text is read makes the vector of its line, and the
    others make none. -/
def Whole (w : Written) : Prop :=
  ∀ line ∈ w.content, ∃ pre piece post, Shell.configLines w.text = pre ++ piece :: post ∧
    cmdMakeStrvec piece = cmdMakeStrvec line ∧ ∀ p ∈ pre ++ post, cmdMakeStrvec p = none

end Written

/-- The lines that are written for a configuration, if it has any. -/
def Config.written (config : Config) : List Written :=
  if config.line = [] then [] else .name config.name :: config.line.map .line ++ [.mark]

/-- What is written after the time stamp. -/
def ConfigStore.written (s : ConfigStore) : List Written :=
  s.configTop.map .top ++ .mark :: (List.range s.configvec.max).flatMap fun i =>
    ((s.configvec.slot i).getD []).flatMap fun c => (s.configs c).written

/-- The lines to be dumped have vectors, and no newlines. -/
def ConfigStore.Loadable (s : ConfigStore) : Prop :=
  ∀ w ∈ s.written, ∀ line ∈ w.content, '\n' ∉ line ∧ cmdMakeStrvec line ≠ none

/-- What is offered is as wanted, and all of it if loading ends. -/
def Replays (ends : Prop) (attempts : List (List CString × NodeType))
    (wanted : List (List CString × Bool)) : Prop :=
  ∃ offered, offered <+: wanted ∧ (ends → offered = wanted) ∧
    List.Forall₂ (fun attempt want => attempt.1 = want.1 ∧ (want.2 → attempt.2 = .config))
      attempts offered

variable {s : ConfigStore} {w : Written} {line : CString}

/-- The dump of a configuration is the text of what is written. -/
theorem Config.dump_eq (config : Config) :
    config.dump = config.written.flatMap Written.text := by
  rw [dump, written]
  split_ifs
  · rfl
  · rw [List.flatMap_append, List.flatMap_cons, List.flatMap_map]
    simp [Written.text, newline]

/-- So is the body of the whole dump. -/
theorem configDumpBody_eq (s : ConfigStore) :
    configDumpBody s = s.written.flatMap Written.text := by
  have hslot (i : ℕ) : dumpSlot s.configs (s.configvec.slot i) =
      (((s.configvec.slot i).getD []).flatMap fun c => (s.configs c).written).flatMap
        Written.text := by
    rw [List.flatMap_assoc]
    simp only [← Config.dump_eq]
    rcases s.configvec.slot i with _ | master
    · rfl
    · rfl
  rw [configDumpBody, ConfigStore.written, List.flatMap_append, List.flatMap_cons,
    List.flatMap_map, List.flatMap_assoc]
  simp only [hslot]
  simp [Written.text, newline]

/-- White space around a line does not matter. -/
theorem cmdMakeStrvec_space (line : CString) :
    cmdMakeStrvec (' ' :: line) = cmdMakeStrvec line := by
  rw [cmdMakeStrvec_eq, cmdMakeStrvec_eq, blankQuotes_cons (by decide),
    List.dropWhile_cons_of_pos (by decide), lineWords_cons (by decide)]

/-- The newline at the end makes no word. -/
theorem cmdMakeStrvec_newline (line : CString) :
    cmdMakeStrvec (line ++ newline) = cmdMakeStrvec line := by
  have hquotes : blankQuotes (line ++ newline) = blankQuotes line ++ newline := by
    by_cases hcount : 2 ≤ line.count '"'
    · exact blankQuotes_append hcount newline
    · have hnewline : (line ++ newline).count '"' ≤ 1 := by
        rw [List.count_append, show newline.count '"' = 0 from rfl]
        omega
      rw [blankQuotes_of_count hnewline, blankQuotes_of_count (by omega)]
  have hwords : lineWords (blankQuotes line ++ newline) = lineWords (blankQuotes line) :=
    (lineWords_append_cons (by decide) _ []).trans (List.append_nil _)
  have hhead : ((blankQuotes line ++ newline).dropWhile isspace).head? =
      ((blankQuotes line).dropWhile isspace).head? := by
    rw [List.dropWhile_append]
    rcases (blankQuotes line).dropWhile isspace with _ | ⟨c, cs⟩
    · rfl
    · rfl
  rw [cmdMakeStrvec_eq, cmdMakeStrvec_eq, hquotes, hwords, hhead]

namespace Written

/-- The vector of a text is that of its line. -/
theorem cmdMakeStrvec_text (h : w.content = some line) :
    cmdMakeStrvec w.text = cmdMakeStrvec line := by
  cases w with
  | mark => cases h
  | top line' =>
    obtain rfl := Option.some.inj h
    exact cmdMakeStrvec_newline _
  | name name =>
    obtain rfl := Option.some.inj h
    exact cmdMakeStrvec_newline _
  | line line' =>
    obtain rfl := Option.some.inj h
    exact (cmdMakeStrvec_newline _).trans (cmdMakeStrvec_space _)

/-- A text ends its line. -/
theorem exists_text (w : Written) (h : ∀ line ∈ w.content, '\n' ∉ line) :
    ∃ u, '\n' ∉ u ∧ w.text = u ++ ['\n'] := by
  cases w with
  | mark => exact ⟨['!'], by decide, rfl⟩
  | top line => exact ⟨line, h line rfl, rfl⟩
  | name name => exact ⟨name, h name rfl, rfl⟩
  | line line =>
    refine ⟨' ' :: line, ?_, rfl⟩
    rw [List.mem_cons, not_or]
    exact ⟨by decide, h line rfl⟩

/-- The lines of the texts are read one text after another. -/
theorem flatMap_configLines (ws : List Written) (h : ∀ w ∈ ws, ∀ line ∈ w.content, '\n' ∉ line) :
    Shell.configLines (ws.flatMap text) = ws.flatMap fun w => Shell.configLines w.text := by
  induction ws with
  | nil => rfl
  | cons w ws ih =>
    obtain ⟨u, -, hu⟩ := exists_text w (h w List.mem_cons_self)
    rw [List.flatMap_cons, List.flatMap_cons, hu, List.append_assoc, List.singleton_append,
      Shell.configLines_append, ih fun w' hw' => h w' (List.mem_cons_of_mem _ hw')]

/-- A text that fits the buffer is read at once. -/
theorem whole_of_length (h : ∀ line ∈ w.content, '\n' ∉ line)
    (hlen : w.text.length < Shell.vtyBufsiz) : w.Whole := by
  intro line hline
  obtain ⟨u, hnewline, hu⟩ := exists_text w h
  refine ⟨[], w.text, [], ?_, cmdMakeStrvec_text hline, nofun⟩
  have hlen' : u.length < Shell.vtyBufsiz - 1 := by
    rw [hu, List.length_append, List.length_singleton] at hlen
    omega
  rw [hu, Shell.configLines_of_length hnewline hlen']
  rfl

end Written

/-! ## Loading texts -/

namespace Replays

variable {ends : Prop} {attempts attempts' : List (List CString × NodeType)}
  {wanted wanted' : List (List CString × Bool)}

theorem nil : Replays ends [] [] := ⟨[], List.prefix_rfl, fun _ => rfl, .nil⟩

theorem append (h : Replays True attempts wanted) (h' : Replays ends attempts' wanted') :
    Replays ends (attempts ++ attempts') (wanted ++ wanted') := by
  obtain ⟨offered, -, hall, hrel⟩ := h
  obtain rfl := hall trivial
  obtain ⟨offered', hprefix, hall', hrel'⟩ := h'
  refine ⟨offered ++ offered', ?_, fun hends => ?_, List.rel_append hrel hrel'⟩
  · exact (List.prefix_append_right_inj _).2 hprefix
  · rw [hall' hends]

/-- Once the program has ended, nothing more has to be offered. -/
theorem append_of_not (h : Replays ends attempts wanted) (wanted' : List (List CString × Bool)) :
    Replays False attempts (wanted ++ wanted') := by
  obtain ⟨offered, hprefix, -, hrel⟩ := h
  exact ⟨offered, hprefix.trans (List.prefix_append _ _), False.elim, hrel⟩

end Replays

variable {F W : Type} {sh : Shell F W} {st : State W} {ws ws' : List Written}
  {Q Q' : State W → Prop}

/-- Loading texts offers the vectors of their lines, and if it ends, the state then is
    in `Q`. -/
def Loads (sh : Shell F W) (ws : List Written) (st : State W) (Q : State W → Prop) : Prop :=
  ∃ attempts r, sh.Offers (ws.flatMap fun w => Shell.configLines w.text) st attempts r ∧
    Replays r.isSome attempts (ws.filterMap Written.wanted) ∧ ∀ st' ∈ r, Q st'

namespace Loads

theorem nil (sh : Shell F W) (hst : Q st) : Loads sh [] st Q :=
  ⟨[], some st, .nil sh st, .nil, fun _ h => Option.some.inj h ▸ hst⟩

theorem append (h : Loads sh ws st Q) (h' : ∀ st', Q st' → Loads sh ws' st' Q') :
    Loads sh (ws ++ ws') st Q' := by
  obtain ⟨attempts, r, hoffers, hreplays, hr⟩ := h
  rw [Loads, List.flatMap_append, List.filterMap_append]
  rcases r with _ | st'
  · refine ⟨attempts, none, hoffers.append_none _, ?_, nofun⟩
    simpa using hreplays.append_of_not (ws'.filterMap Written.wanted)
  · obtain ⟨attempts', r', hoffers', hreplays', hr'⟩ := h' st' (hr st' rfl)
    refine ⟨attempts ++ attempts', r', hoffers.append hoffers', ?_, hr'⟩
    exact Replays.append (by simpa using hreplays) hreplays'

/-- A mark sets the node. -/
theorem mark (sh : Shell F W) (st : State W) :
    Loads sh [.mark] st fun st' => st'.file.node = .config := by
  have hnone : cmdMakeStrvec ['!', '\n'] = none := cmdMakeStrvec_of_mark rfl (.inl rfl)
  obtain ⟨st', hoffers, -, hnode⟩ := Shell.Offers.of_none sh hnone st
  refine ⟨[], some st', hoffers, .nil, fun st'' h => ?_⟩
  rw [← Option.some.inj h]
  exact hnode rfl

/-- A text that is whole offers the vector of its line. -/
theorem of_whole (sh : Shell F W) (h : w.Whole) (hline : w.content = some line)
    (hvector : cmdMakeStrvec line ≠ none) (hnode : w.isName → st.file.node = .config) :
    Loads sh [w] st fun _ => True := by
  obtain ⟨pre, piece, post, hpieces, hpiece, hnone⟩ := h line hline
  obtain ⟨vline, hvline⟩ := Option.ne_none_iff_exists'.1 hvector
  obtain ⟨node, r, hoffers, hconfig⟩ := Shell.Offers.of_one sh (hpiece.trans hvline) hnone st
  have hwanted : w.wanted = some (vline, w.isName) := by
    rw [Written.wanted, hline, Option.bind_some, hvline, Option.map_some]
  rw [Loads, List.flatMap_singleton, hpieces, List.filterMap_cons_some hwanted]
  refine ⟨[(vline, node)], r, hoffers, ⟨_, List.prefix_rfl, fun _ => rfl, ?_⟩, fun _ _ => trivial⟩
  exact .cons ⟨rfl, fun hname => hconfig (hnode hname)⟩ .nil

/-- So do texts that are whole, and not names. -/
theorem of_forall_whole (sh : Shell F W) (h : ∀ w ∈ ws, w.Whole ∧ w.isName = false ∧
    ∃ line, w.content = some line ∧ cmdMakeStrvec line ≠ none) (st : State W) :
    Loads sh ws st fun _ => True := by
  induction ws generalizing st with
  | nil => exact nil sh trivial
  | cons w ws ih =>
    obtain ⟨hwhole, hname, line, hline, hvector⟩ := h w List.mem_cons_self
    have hw : Loads sh [w] st fun _ => True :=
      of_whole sh hwhole hline hvector fun hname' => by
        rw [hname] at hname'
        cases hname'
    exact hw.append fun st' _ => ih (fun w' hw' => h w' (List.mem_cons_of_mem _ hw')) st'

/-- The lines of a configuration come between its name, in the config node, and a mark,
    which sets the node for the next one. -/
theorem config (sh : Shell F W) {config : Config} (hwhole : ∀ w ∈ config.written, w.Whole)
    (hvector : ∀ w ∈ config.written, ∀ line ∈ w.content, cmdMakeStrvec line ≠ none)
    (hnode : st.file.node = .config) :
    Loads sh config.written st fun st' => st'.file.node = .config := by
  rw [Config.written] at hwhole hvector ⊢
  split_ifs at hwhole hvector ⊢ with hline
  · exact nil sh hnode
  · rw [← List.singleton_append, List.append_assoc] at hwhole hvector ⊢
    have hname : Loads sh [.name config.name] st fun _ => True :=
      of_whole sh (hwhole _ (List.mem_append_left _ List.mem_cons_self)) rfl
        (hvector _ (List.mem_append_left _ List.mem_cons_self) _ rfl) fun _ => hnode
    refine hname.append fun st₁ _ => ?_
    have hlines : Loads sh (config.line.map .line) st₁ fun _ => True := by
      refine of_forall_whole sh (fun w hw => ?_) st₁
      have hmem := List.mem_append_right [Written.name config.name]
        (List.mem_append_left [.mark] hw)
      obtain ⟨line, -, rfl⟩ := List.mem_map.1 hw
      exact ⟨hwhole _ hmem, rfl, line, rfl, hvector _ hmem line rfl⟩
    exact hlines.append fun st₂ _ => mark sh st₂

theorem configs (sh : Shell F W) {configs : List Config}
    (hwhole : ∀ w ∈ configs.flatMap Config.written, w.Whole)
    (hvector : ∀ w ∈ configs.flatMap Config.written, ∀ line ∈ w.content,
      cmdMakeStrvec line ≠ none)
    (hnode : st.file.node = .config) :
    Loads sh (configs.flatMap Config.written) st fun _ => True := by
  induction configs generalizing st with
  | nil => exact nil sh trivial
  | cons config configs ih =>
    rw [List.flatMap_cons] at hwhole hvector ⊢
    have hconfig := Loads.config sh (fun w hw => hwhole w (List.mem_append_left _ hw))
      (fun w hw => hvector w (List.mem_append_left _ hw)) hnode
    refine hconfig.append fun st' hnode' => ?_
    exact ih (fun w hw => hwhole w (List.mem_append_right _ hw))
      (fun w hw => hvector w (List.mem_append_right _ hw)) hnode'

/-- Everything written is loaded, when it is whole. -/
theorem written (sh : Shell F W) (h : s.Loadable) (hwhole : ∀ w ∈ s.written, w.Whole)
    (st : State W) : Loads sh s.written st fun _ => True := by
  have hvector (w) (hw : w ∈ s.written) (line) (hline : line ∈ w.content) :
      cmdMakeStrvec line ≠ none := (h w hw line hline).2
  obtain ⟨configs, hconfigs⟩ : ∃ configs : List Config,
      s.written = s.configTop.map .top ++ ([.mark] ++ configs.flatMap Config.written) := by
    refine ⟨(List.range s.configvec.max).flatMap fun i =>
      ((s.configvec.slot i).getD []).map s.configs, ?_⟩
    rw [ConfigStore.written, List.flatMap_assoc]
    simp only [List.flatMap_map]
    rfl
  rw [hconfigs] at hwhole hvector ⊢
  have htop : Loads sh (s.configTop.map .top) st fun _ => True := by
    refine of_forall_whole sh (fun w hw => ?_) st
    have hmem := List.mem_append_left ([.mark] ++ configs.flatMap Config.written) hw
    obtain ⟨line, -, rfl⟩ := List.mem_map.1 hw
    exact ⟨hwhole _ hmem, rfl, line, rfl, hvector _ hmem line rfl⟩
  refine htop.append fun st₁ _ => (mark sh st₁).append fun st₂ hnode => ?_
  exact Loads.configs sh
    (fun w hw => hwhole w (List.mem_append_right _ (List.mem_append_right _ hw)))
    (fun w hw => hvector w (List.mem_append_right _ (List.mem_append_right _ hw))) hnode

end Loads

/-! ## The pieces of a text -/

namespace Written

/-- The vectors of the pieces of a text, and the one wanted. -/
def block (w : Written) : Option (Align.Block (List CString)) :=
  (w.content.bind cmdMakeStrvec).map fun vline =>
    ((Shell.configLines w.text).filterMap cmdMakeStrvec, vline)

theorem block_of_content (h : w.content = some line) {vline : List CString}
    (hvline : cmdMakeStrvec line = some vline) :
    w.block = some ((Shell.configLines w.text).filterMap cmdMakeStrvec, vline) := by
  rw [block, h, Option.bind_some, hvline, Option.map_some]

/-- Blocks are balanced, as pieces of lines. -/
theorem balanced_block {b : Align.Block (List CString)} (h : w.block = some b) :
    Align.Balanced (2 ≤ quotes ·) b := by
  obtain ⟨vline, hvline, rfl⟩ := Option.map_eq_some_iff.1 h
  obtain ⟨line, hline, hvline⟩ := Option.bind_eq_some_iff.1 hvline
  refine balanced_pieces ?_
  rw [Shell.flatten_configLines, cmdMakeStrvec_text hline, hvline]

/-- The vectors of all pieces are in the blocks. -/
theorem flatten_blocks (ws : List Written)
    (h : ∀ w ∈ ws, ∀ line ∈ w.content, cmdMakeStrvec line ≠ none) :
    ((ws.filterMap block).map Prod.fst).flatten =
      (ws.flatMap fun w => Shell.configLines w.text).filterMap cmdMakeStrvec := by
  induction ws with
  | nil => rfl
  | cons w ws ih =>
    rw [List.flatMap_cons, List.filterMap_append,
      ← ih fun w' hw' => h w' (List.mem_cons_of_mem _ hw')]
    rcases hcontent : w.content with _ | line
    · have hblock : w.block = none := by rw [block, hcontent, Option.bind_none, Option.map_none]
      have hmark : w = .mark := by
        cases w with
        | mark => rfl
        | top line => cases hcontent
        | name name => cases hcontent
        | line line => cases hcontent
      rw [List.filterMap_cons_none hblock, hmark]
      rfl
    · obtain ⟨vline, hvline⟩ := Option.ne_none_iff_exists'.1 (h w List.mem_cons_self line hcontent)
      rw [List.filterMap_cons_some (block_of_content hcontent hvline), List.map_cons,
        List.flatten_cons]

/-- Of the pieces of a text that is whole, one makes a vector. -/
theorem Whole.length_eq (h : w.Whole) (hline : w.content = some line)
    (hvector : cmdMakeStrvec line ≠ none) :
    ((Shell.configLines w.text).filterMap cmdMakeStrvec).length = 1 := by
  obtain ⟨pre, piece, post, hpieces, hpiece, hnone⟩ := h line hline
  obtain ⟨vline, hvline⟩ := Option.ne_none_iff_exists'.1 hvector
  have hpre : pre.filterMap cmdMakeStrvec = [] :=
    List.filterMap_eq_nil_iff.2 fun p hp => hnone p (List.mem_append_left _ hp)
  have hpost : post.filterMap cmdMakeStrvec = [] :=
    List.filterMap_eq_nil_iff.2 fun p hp => hnone p (List.mem_append_right _ hp)
  rw [hpieces, List.filterMap_append, List.filterMap_cons_some (hpiece.trans hvline), hpre, hpost]
  rfl

/-- The blocks are for the lines that are wanted. -/
theorem map_snd_blocks (ws : List Written) :
    (ws.filterMap block).map Prod.snd = (ws.filterMap wanted).map Prod.fst := by
  rw [List.map_filterMap, List.map_filterMap]
  refine List.filterMap_congr fun w _ => ?_
  rw [block, wanted, Option.map_map, Option.map_map]
  rfl

end Written

/-! ## Loading what was dumped -/

section Dump

variable {timestr : CString}

/-- The time stamp is a comment, read at once. -/
theorem configLines_configDump (htime : '\n' ∉ timestr) (hlen : timestr.length < 200)
    (h : s.Loadable) : ∃ stamp, cmdMakeStrvec stamp = none ∧
      Shell.configLines (configDump s (some timestr)) =
        stamp :: s.written.flatMap fun w => Shell.configLines w.text := by
  have hnewline : '\n' ∉ "#Writed on ".toList ++ timestr := by
    rw [List.mem_append, not_or]
    exact ⟨by decide, htime⟩
  have hstamp : ("#Writed on ".toList ++ timestr).length < Shell.vtyBufsiz - 1 := by
    rw [List.length_append, show "#Writed on ".toList.length = 11 from rfl,
      show Shell.vtyBufsiz = 512 from rfl]
    omega
  have hhead : ("#Writed on ".toList ++ timestr ++ ['\n']).head? = some '#' := rfl
  refine ⟨_, cmdMakeStrvec_of_mark hhead (.inr rfl), ?_⟩
  change Shell.configLines ("#Writed on ".toList ++ timestr ++ newline ++ configDumpBody s) = _
  rw [configDumpBody_eq, newline, List.append_assoc _ ['\n'], List.singleton_append,
    Shell.configLines_append, Shell.configLines_of_length hnewline hstamp,
    Written.flatMap_configLines s.written fun w hw line hline => (h w hw line hline).1,
    List.singleton_append]

/-- Whatever the executor does, texts that are whole are replayed. -/
theorem replays_of_whole (htime : '\n' ∉ timestr) (hlen : timestr.length < 200) (h : s.Loadable)
    (hwhole : ∀ w ∈ s.written, w.Whole) (sh : Shell F W) (st : State W) :
    Replays (((sh.vtyshConfigFromFile (some (configDump s (some timestr)))).result st).isSome)
      (sh.firstAttempts (configDump s (some timestr)) st)
      (s.written.filterMap Written.wanted) := by
  obtain ⟨stamp, hnone, hpieces⟩ := configLines_configDump htime hlen h
  obtain ⟨st₁, hstamp, -, -⟩ := Shell.Offers.of_none sh hnone st
  obtain ⟨attempts, r, hoffers, hreplays, -⟩ := Loads.written sh h hwhole st₁
  have hfile := hstamp.append hoffers
  rw [List.singleton_append, ← hpieces] at hfile
  obtain ⟨hattempts, hends⟩ := hfile.vtyshConfigFromFile
  rw [hattempts, hends]
  exact hreplays

/-- In a shell without commands, loading ends, and only texts that are whole are
    replayed. -/
theorem whole_of_replays (htime : '\n' ∉ timestr) (hlen : timestr.length < 200) (h : s.Loadable)
    {st : State Unit} (hnode : st.shell.node ≠ .authEnable)
    (hreplays : Replays
      (((Shell.bare.vtyshConfigFromFile (some (configDump s (some timestr)))).result st).isSome)
      (Shell.bare.firstAttempts (configDump s (some timestr)) st)
      (s.written.filterMap Written.wanted)) :
    ∀ w ∈ s.written, w.Whole := by
  obtain ⟨stamp, hnone, hpieces⟩ := configLines_configDump htime hlen h
  obtain ⟨attempts, st', hoffers⟩ := Shell.exists_offers_bare hnode
    (Shell.configLines (configDump s (some timestr)))
  obtain ⟨hattempts, hends⟩ := hoffers.vtyshConfigFromFile
  rw [hattempts, hends] at hreplays
  obtain ⟨offered, -, hall, hrel⟩ := hreplays
  -- Nothing ends the load here, so that all attempts are offered.
  obtain rfl := hall rfl
  have hvectors : attempts.map Prod.fst = (s.written.filterMap Written.wanted).map Prod.fst := by
    rw [← List.forall₂_eq_eq_eq, List.forall₂_map_left_iff, List.forall₂_map_right_iff]
    exact hrel.imp fun _ _ hsame => hsame.1
  rw [hoffers.vectors_eq, hpieces, List.filterMap_cons_none hnone,
    ← Written.flatten_blocks s.written fun w hw line hline => (h w hw line hline).2,
    ← Written.map_snd_blocks] at hvectors
  have hbalanced : ∀ b ∈ s.written.filterMap Written.block, Align.Balanced (2 ≤ quotes ·) b := by
    intro b hb
    obtain ⟨w, -, hw⟩ := List.mem_filterMap.1 hb
    exact Written.balanced_block hw
  intro w hw line hline
  obtain ⟨vline, hvline⟩ := Option.ne_none_iff_exists'.1 (h w hw line hline).2
  -- The words that are offered are those that are wanted, so that each text offers its own.
  have hblock := Align.eq_singleton hbalanced hvectors _
    (List.mem_filterMap.2 ⟨w, hw, Written.block_of_content hline hvline⟩)
  obtain ⟨pre, piece, post, hsplit, hpre, hpiece, hpost⟩ := List.filterMap_eq_cons_iff.1 hblock
  refine ⟨pre, piece, post, hsplit, hpiece.trans hvline.symm, fun p hp => ?_⟩
  rcases List.mem_append.1 hp with hp | hp
  · exact hpre p hp
  · exact List.filterMap_eq_nil_iff.1 hpost p hp

/-- Loading what was dumped replays it, whatever the executor does, exactly if each text
    is whole. -/
theorem load_replays_iff (htime : '\n' ∉ timestr) (hlen : timestr.length < 200)
    (h : s.Loadable) :
    (∀ (F W : Type) (sh : Shell F W) (st : State W),
      Replays (((sh.vtyshConfigFromFile (some (configDump s (some timestr)))).result st).isSome)
        (sh.firstAttempts (configDump s (some timestr)) st)
        (s.written.filterMap Written.wanted)) ↔
      ∀ w ∈ s.written, w.Whole := by
  refine ⟨fun hreplays => ?_, fun hwhole F W sh st => replays_of_whole htime hlen h hwhole sh st⟩
  have hnode : (⟨⟨.enable⟩, ⟨.config⟩, ⟨none, 0⟩, ()⟩ : State Unit).shell.node ≠ .authEnable := by
    decide
  exact whole_of_replays htime hlen h hnode (hreplays Empty Unit Shell.bare _)

/-- A line in `configTop`, and a configuration. -/
def sampleStore : ConfigStore where
  configTop := [['h', 'i']]
  configvec := ⟨1, [some [0]]⟩
  configs _ := ⟨['b'], 0, [['x']]⟩
  fresh := 1

/-- A configuration with a line that does not fit in the buffer. -/
def longStore : ConfigStore := { configInit with configTop := [List.replicate 600 'a'] }

/-- Before the first line is read. -/
def enableState : State Unit := ⟨⟨.enable⟩, ⟨.config⟩, ⟨none, 0⟩, ()⟩

/-- The load of a store with one configuration. -/
theorem load_replays_sample :
    Replays (((Shell.bare.vtyshConfigFromFile
        (some (configDump sampleStore (some ['n', 'o', 'w'])))).result enableState).isSome)
      (Shell.bare.firstAttempts (configDump sampleStore (some ['n', 'o', 'w'])) enableState)
      [([['h', 'i']], false), ([['b']], true), ([['x']], false)] := by
  have hwritten : sampleStore.written = [.top ['h', 'i'], .mark, .name ['b'], .line ['x'], .mark] :=
    rfl
  have hload : sampleStore.Loadable := by
    rw [ConfigStore.Loadable, hwritten]
    decide
  have hwhole : ∀ w ∈ sampleStore.written, w.Whole := by
    intro w hw
    refine Written.whole_of_length (fun line hline => (hload w hw line hline).1) ?_
    rw [hwritten] at hw
    revert w
    decide
  exact (load_replays_iff (by decide) (by decide) hload).2 hwhole Empty Unit Shell.bare enableState

/-- A long line is read as two lines. -/
theorem not_load_replays_long : longStore.Loadable ∧
    ¬ Replays (((Shell.bare.vtyshConfigFromFile
        (some (configDump longStore (some ['n', 'o', 'w'])))).result enableState).isSome)
      (Shell.bare.firstAttempts (configDump longStore (some ['n', 'o', 'w'])) enableState)
      (longStore.written.filterMap Written.wanted) := by
  have hwritten : longStore.written = [.top (List.replicate 600 'a'), .mark] := rfl
  have hload : longStore.Loadable := by
    rw [ConfigStore.Loadable, hwritten]
    decide +kernel
  refine ⟨hload, fun hreplays => ?_⟩
  have hwhole := whole_of_replays (by decide) (by decide) hload (by decide) hreplays
  rw [hwritten] at hwhole
  have hone := (hwhole _ List.mem_cons_self).length_eq rfl
    (hload _ (hwritten ▸ List.mem_cons_self) _ rfl).2
  revert hone
  decide +kernel

end Dump

end Mksh
