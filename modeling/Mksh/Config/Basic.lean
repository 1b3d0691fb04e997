import Mathlib.Logic.Function.Basic
import Mksh.Linklist
import Mksh.Vector

/-!
# The configuration

The configuration that the shell writes to a file: the lines of `configTop`, and
for each index, the configurations with their names and lines (`ConfigStore`).
Asking for a configuration creates it when there is none of that name
(`configGet`), and its lines, in order, are added and deleted by their text
(`configAddLine`, `configDelLine`, `configDelLineByleft`).
-/

namespace Mksh

open CString

/-- `struct config`: a name at an index, with its lines. -/
structure Config where
  name : CString
  index : ℤ
  line : List CString
  deriving DecidableEq

/-- The lists of configurations are in the slots of a vector. A configuration is
    known by its number: `configs` holds those allocated so far, up to `fresh`. -/
structure ConfigStore where
  configTop : List CString
  configvec : CVector (List ℕ)
  configs : ℕ → Config
  fresh : ℕ

/-- An `int` passed for an `unsigned int`. -/
def toUnsigned (index : ℤ) : ℕ := (index % 2 ^ 32).toNat

/-- Lines are in the order of their characters. -/
def lineCmp : CString → CString → ℤ := strcmp

/-- Configurations are in the order of their names. -/
def configCmp (configs : ℕ → Config) (c₁ c₂ : ℕ) : ℤ :=
  strcmp (configs c₁).name (configs c₂).name

/-- The configuration at the start, which is empty. -/
def configInit : ConfigStore := ⟨[], vectorInit 1, fun _ => ⟨[], 0, []⟩, 0⟩

/-! ## Configurations -/

/-- The list at an index, a new one if there is none yet, and the vector after. -/
def masterEnsure (configvec : CVector (List ℕ)) (i : ℕ) :
    Option (CVector (List ℕ) × List ℕ) :=
  (vectorLookupEnsure configvec i).bind fun p =>
    match p.2 with
    | some master => some (p.1, master)
    | none => (vectorSetIndex p.1 i []).map fun configvec => (configvec, [])

/-- The last configuration of the list that has the name. -/
def findConfig (configs : ℕ → Config) (line : CString) (master : List ℕ) : Option ℕ :=
  master.foldl (fun config c => if strcmp (configs c).name line = 0 then some c else config) none

/-- The configuration of a name, which is created if there is none; `none` if the
    vector cannot grow up to the index. -/
def configGet (s : ConfigStore) (index : ℤ) (line : CString) : Option (ℕ × ConfigStore) :=
  (masterEnsure s.configvec (toUnsigned index)).map fun p =>
    match findConfig s.configs line p.2 with
    | some config => (config, { s with configvec := p.1 })
    | none =>
      let configs := Function.update s.configs s.fresh ⟨line, index, []⟩
      let master := listnodeAddSort (some (configCmp configs)) s.fresh p.2
      (s.fresh, { s with
        configvec := p.1.setSlot (toUnsigned index) master
        configs
        fresh := s.fresh + 1 })

/-! ## Lines -/

/-- Adding the text `info`, unless it is empty. -/
def configAddLine (config : List CString) (info : CString) : List CString :=
  if 0 < info.length then listnodeAddSort (some lineCmp) info config else config

/-- Deleting the first line of that text, if there is one. -/
def configDelLine (config : List CString) (line : CString) : List CString :=
  config.eraseP fun pnt => strcmp pnt line = 0

/-- Deleting the first line that starts with the text, if there is one. -/
def configDelLineByleft (config : List CString) (line : CString) : List CString :=
  config.eraseP fun pnt => strncmp pnt line line.length = 0

/-- What is done to a list of lines. -/
inductive Change
  | add
  | del
  | delByleft
  deriving DecidableEq

/-- What the function does to the lines. -/
def Change.apply : Change → List CString → CString → List CString
  | .add => configAddLine
  | .del => configDelLine
  | .delByleft => configDelLineByleft

/-- A list of lines: `configTop`, or that of a configuration. -/
inductive ListRef
  | top
  | config (config : ℕ)
  deriving DecidableEq

namespace ConfigStore

/-- Changing a list of lines. -/
def change (s : ConfigStore) (f : List CString → List CString) : ListRef → ConfigStore
  | .top => { s with configTop := f s.configTop }
  | .config c =>
    let config := s.configs c
    { s with configs := Function.update s.configs c { config with line := f config.line } }

/-- The list is one that there is. -/
def Has (s : ConfigStore) : ListRef → Prop
  | .top => True
  | .config c => c < s.fresh

instance (s : ConfigStore) (ref : ListRef) : Decidable (s.Has ref) :=
  match ref with
  | .top => isTrue trivial
  | .config c => inferInstanceAs (Decidable (c < s.fresh))

end ConfigStore

/-! ## Dumping -/

/-- The end of a line. -/
def newline : CString := ['\n']

/-- A configuration, unless it has no lines. -/
def Config.dump (config : Config) : CString :=
  if config.line = [] then []
  else config.name ++ newline ++
    config.line.flatMap (fun line => ' ' :: line ++ newline) ++ '!' :: newline

/-- The configurations of a slot. -/
def dumpSlot (configs : ℕ → Config) : Option (List ℕ) → CString
  | some master => master.flatMap fun c => (configs c).dump
  | none => []

/-- What is written after the time stamp. -/
def configDumpBody (s : ConfigStore) : CString :=
  s.configTop.flatMap (fun line => line ++ newline) ++ '!' :: newline ++
    (List.range s.configvec.max).flatMap fun i => dumpSlot s.configs (s.configvec.slot i)

/-- What is written to the file, given the time: nothing if that is not known. -/
def configDump (s : ConfigStore) : Option CString → CString
  | none => []
  | some timestr => "#Writed on ".toList ++ timestr ++ newline ++ configDumpBody s

end Mksh
