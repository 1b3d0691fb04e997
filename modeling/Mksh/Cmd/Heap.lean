import Mksh.Cmd.Session
import Mksh.Lib.Memory
import Mksh.Linklist

/-!
# The registry in memory

The versions and projects as `mk.c` has them in memory: records and strings that are
allocated one by one, linked by the nodes of the lists. A pointer is an address, or
`none` for `NULL`. Using it where no block of its kind is, ends the process; what
`malloc` returns is not `NULL`, as the program exits otherwise.

`list_delete` calls the function that the list has for its data, which may delete
another list. How deep this goes is bounded (`callDel`). A loop that goes through more
nodes than have been allocated never ends, which ends the process as well. The lists
have no `cmp`.
-/

namespace Mksh

open CString Process Memory

variable {W : Type}

namespace Heap

/-! ## Blocks -/

/-- The functions that free the data of a list. -/
inductive Del
  | versionFree
  | projectFree
  deriving DecidableEq

/-- `struct list`, with the function that frees its data. -/
structure ListBlock where
  head : Option ℕ
  tail : Option ℕ
  count : UInt32
  del : Option Del

/-- `struct listnode`. -/
structure NodeBlock where
  next : Option ℕ
  prev : Option ℕ
  data : Option ℕ

/-- `struct version_inf`, with the pointers to its strings and its list. -/
structure VersionBlock where
  arch : CString
  name : Option ℕ
  dirName : Option ℕ
  attr : Option VersionAttr
  projects : Option ℕ

/-- `struct project_inf`, with the pointer to its version. -/
structure ProjectBlock where
  name : Option ℕ
  attr : Option ProjectAttr
  version : Option ℕ

/-- What a block of memory holds. -/
inductive Block
  | string (s : CString)
  | list (l : ListBlock)
  | node (n : NodeBlock)
  | version (vi : VersionBlock)
  | project (pi : ProjectBlock)

/-- The blocks that hold strings. -/
def stringKind : Kind Block CString where
  block := .string
  content
    | .string s => some s
    | _ => none
  content_block _ := rfl

/-- The blocks that hold lists. -/
def listKind : Kind Block ListBlock where
  block := .list
  content
    | .list l => some l
    | _ => none
  content_block _ := rfl

/-- The blocks that hold nodes of lists. -/
def nodeKind : Kind Block NodeBlock where
  block := .node
  content
    | .node n => some n
    | _ => none
  content_block _ := rfl

/-- The blocks that hold versions. -/
def versionKind : Kind Block VersionBlock where
  block := .version
  content
    | .version vi => some vi
    | _ => none
  content_block _ := rfl

/-- The blocks that hold projects. -/
def projectKind : Kind Block ProjectBlock where
  block := .project
  content
    | .project pi => some pi
    | _ => none
  content_block _ := rfl

/-- What only the memory is needed for. -/
abbrev HeapProcess (α : Type) := Process (Memory Block) Empty α

/-- A new block, and its address. -/
def new (b : Block) : HeapProcess (Option ℕ) := do
  let a ← alloc b
  return some a

/-- Freeing `NULL` does nothing. -/
def xfree : Option ℕ → HeapProcess Unit
  | none => return ()
  | some a => free a

/-- A copy of the string, in a block of its own. -/
def xstrdup (str : CString) : HeapProcess (Option ℕ) := new (.string str)

/-! ## Lists -/

/-- Allocate new list. -/
def listNew : HeapProcess (Option ℕ) := new (.list ⟨none, none, 0, none⟩)

/-- `listnode_add` is `listnode_add_sort`. -/
def listnodeAdd (list val : Option ℕ) : HeapProcess Unit := do
  let node ← new (.node ⟨none, none, none⟩)
  nodeKind.update (fun n => { n with data := val }) node
  -- These lists have no `cmp`, so that the new node is put at the end.
  let l ← listKind.read list
  nodeKind.update (fun n => { n with prev := l.tail }) node
  if l.tail.isSome then nodeKind.update (fun n => { n with next := node }) l.tail
  else listKind.update (fun l => { l with head := node }) list
  listKind.update (fun l => { l with tail := node }) list
  listKind.update (fun l => { l with count := l.count + 1 }) list

/-- The body of a loop is not entered for `NULL`. -/
def enter (body : Option ℕ → HeapProcess (Option ℕ)) (data : Option ℕ) :
    HeapProcess (Option ℕ) :=
  if data.isSome then body data else return none

/-- `LIST_LOOP` from a node on, until the body returns a pointer. -/
def listLoop (body : Option ℕ → HeapProcess (Option ℕ)) : ℕ → Option ℕ → HeapProcess (Option ℕ)
  | _, none => return none
  | 0, some _ => halt
  | fuel + 1, some node => do
    let n ← nodeKind.read (some node)
    let ret ← enter body n.data
    if ret.isSome then return ret
    -- As in the macro, the link is read after the body.
    let n ← nodeKind.read (some node)
    listLoop body fuel n.next

/-- The loop of `listDelete` over the nodes, from one on: the data are freed with `del`, if
    there is one, and then the node. -/
def listDeleteLoop (call : Del → Option ℕ → HeapProcess Unit) (list : Option ℕ) :
    ℕ → Option ℕ → HeapProcess Unit
  | _, none => return ()
  | 0, some _ => halt
  | fuel + 1, some node => do
    let n ← nodeKind.read (some node)
    let l ← listKind.read list
    match l.del with
    | none => pure ()
    | some del => call del n.data
    -- The next node is known already.
    free node
    listDeleteLoop call list fuel n.next

/-- Delete all listnode then free list itself. -/
def listDelete (call : Del → Option ℕ → HeapProcess Unit) (list : Option ℕ) :
    HeapProcess Unit := do
  let l ← listKind.read list
  let m ← get
  listDeleteLoop call list m.fresh l.head
  xfree list

/-! ## Projects -/

/-- Freeing a project and its name. -/
def projectFree (pi : Option ℕ) : HeapProcess Unit := do
  let p ← projectKind.read pi
  xfree p.name
  xfree pi

/-- The attribute of a new project is found by its name. -/
def projectCreateFinish (pi : Option ℕ) : HeapProcess (Option ℕ) := do
  let p ← projectKind.read pi
  let name ← stringKind.read p.name
  projectKind.update
    (fun p => { p with attr := projectAttrs.find? fun attr => strcmp name attr.name = 0 }) pi
  return pi

/-- A new project, which is added to the list of its version. -/
def projectCreate (name : CString) (vi : Option ℕ) : HeapProcess (Option ℕ) := do
  let pi ← new (.project ⟨none, none, none⟩)
  let str ← xstrdup name
  projectKind.update (fun p => { p with name := str }) pi
  projectKind.update (fun p => { p with version := vi }) pi
  let v ← versionKind.read vi
  listnodeAdd v.projects pi
  projectCreateFinish pi

/-- Whether the name of a project is `name`: the project, if it is. -/
def projectNamed (name : CString) (pi : Option ℕ) : HeapProcess (Option ℕ) := do
  let p ← projectKind.read pi
  let str ← stringKind.read p.name
  return if strcmp name str = 0 then pi else none

/-- The project of a version that has the name. -/
def projectFind (name : CString) (vi : Option ℕ) : HeapProcess (Option ℕ) := do
  let v ← versionKind.read vi
  let l ← listKind.read v.projects
  -- No loop visits more nodes than there are addresses.
  let m ← get
  listLoop (projectNamed name) m.fresh l.head

/-! ## Versions -/

/-- Freeing a version with its names and its projects. -/
def versionFree (call : Del → Option ℕ → HeapProcess Unit) (vi : Option ℕ) :
    HeapProcess Unit := do
  let v ← versionKind.read vi
  xfree v.name
  xfree v.dirName
  listDelete call v.projects
  xfree vi

/-- Replacing the first `c` that `strchr` finds from the position `p` on, and going on
    from there. -/
def replaceLoop (c d : Char) (str : Option ℕ) : ℕ → ℕ → HeapProcess Unit
  | 0, _ => halt
  | fuel + 1, p => do
    let s ← stringKind.read str
    match strchr (s.drop p) c with
    | none => return ()
    | some k => do
      stringKind.update (fun s => s.set (p + k) d) str
      -- The next search starts from where this one has found a character.
      replaceLoop c d str fuel (p + k)

/-- Replacing a character in a string, in place. -/
def replaceAll (c d : Char) (str : Option ℕ) : HeapProcess Unit := do
  let s ← stringKind.read str
  replaceLoop c d str (s.length + 1) 0

/-- The name gets slashes, and the name of the directory none. -/
def versionChangeName (vi : Option ℕ) : HeapProcess Unit := do
  let v ← versionKind.read vi
  replaceAll '+' '/' v.name
  replaceAll '/' '+' v.dirName

/-- The attribute of a new version is found by its name. -/
def versionCreateFinish (vi : Option ℕ) : HeapProcess (Option ℕ) := do
  let v ← versionKind.read vi
  let name ← stringKind.read v.name
  versionKind.update
    (fun v => { v with attr := versionAttrs.find? fun attr => strcmp name attr.name = 0 }) vi
  return vi

/-- A new version without projects, which is added to the list of all versions. -/
def versionCreate (name : CString) (vis : Option ℕ) : HeapProcess (Option ℕ) := do
  let vi ← new (.version ⟨[], none, none, none, none⟩)
  let str ← xstrdup name
  versionKind.update (fun v => { v with name := str }) vi
  let dir ← xstrdup name
  versionKind.update (fun v => { v with dirName := dir }) vi
  let projects ← listNew
  versionKind.update (fun v => { v with projects }) vi
  listKind.update (fun l => { l with del := some .projectFree }) projects
  versionChangeName vi
  listnodeAdd vis vi
  versionCreateFinish vi

/-- The version itself, if it has the name. -/
def versionNamed (name : CString) (vi : Option ℕ) : HeapProcess (Option ℕ) := do
  let v ← versionKind.read vi
  let str ← stringKind.read v.name
  return if strcmp name str = 0 then vi else none

/-- The version that has the name. -/
def versionFind (name : CString) (versions : Option ℕ) : HeapProcess (Option ℕ) := do
  let l ← listKind.read versions
  -- No loop visits more nodes than there are addresses.
  let m ← get
  listLoop (versionNamed name) m.fresh l.head

/-! ## Directories -/

/-- What a directory has: files, and directories, which may not be readable. -/
inductive Entry
  | file (name : CString)
  | dir (name : CString) (entries : Option (List Entry))

/-- The entries of a directory. Those that `callback` creates are the fathers of what
    `sub` makes of their entries. -/
def dirLoop (callback : Option (CString → Option ℕ → HeapProcess (Option ℕ)))
    (sub : Option (List Entry) → Option ℕ → HeapProcess ℤ) (father : Option ℕ) :
    List Entry → HeapProcess Unit
  | [] => return ()
  | .file _ :: entries => dirLoop callback sub father entries
  | .dir name dir :: entries =>
    -- Hidden directories are skipped, and so are `.` and `..`.
    if name.head? = some '.' then dirLoop callback sub father entries
    else match callback with
      -- No callback for this depth: the loop over the entries ends.
      | none => return ()
      | some create => do
        let son ← create name father
        if son.isNone then return ()
        let _ ← sub dir son
        dirLoop callback sub father entries

/-- The callbacks are those from `depth` on. -/
def forAllDirs : List (CString → Option ℕ → HeapProcess (Option ℕ)) → Option (List Entry) →
    Option ℕ → HeapProcess ℤ
  | _, none, _ => return -1
  | [], some entries, father => do
    dirLoop none (fun _ _ => halt) father entries
    return 0
  | create :: callbacks, some entries, father => do
    dirLoop (some create) (forAllDirs callbacks) father entries
    return 0

/-- The constructors that are called for the directories, by their depth. -/
def initCallbacks : List (CString → Option ℕ → HeapProcess (Option ℕ)) :=
  [versionCreate, projectCreate]

/-! ## The registry -/

/-- What a list calls to free its data, at most so many calls inside each other. -/
def callDel : ℕ → Del → Option ℕ → HeapProcess Unit
  | 0, _, _ => halt
  | depth + 1, .versionFree, vi => versionFree (callDel depth) vi
  | _ + 1, .projectFree, pi => projectFree pi

/-- The list `versions`, the memory, and the system. -/
structure Mk (W : Type) where
  versions : Option ℕ
  memory : Memory Block
  sys : Sys W

/-- What the registry in memory and the system are needed for. -/
abbrev MkProcess (W α : Type) := Process (Mk W) SysEvent α

/-- A process on the memory, given the list `versions`. -/
def heap {α : Type} (p : Option ℕ → HeapProcess α) : MkProcess W α :=
  zoom Mk.memory (fun memory s => { s with memory }) Empty.elim fun s => p s.versions

/-- An action of the system, which does not touch the registry. -/
def action {α : Type} (p : Action W α) : MkProcess W α :=
  zoom Mk.sys (fun sys s => { s with sys }) id fun _ => p

/-- Registering all versions and projects, from the directories. -/
def allVersionsInit (root : Option (List Entry)) : MkProcess W Unit := do
  let versions ← heap fun _ => listNew
  modify fun s => { s with versions }
  heap fun versions => listKind.update (fun l => { l with del := some .versionFree }) versions
  let _ ← heap fun versions => forAllDirs initCallbacks root versions

/-- Deleting the list of all versions, with all that it has. -/
def allVersionsFinit (depth : ℕ) : MkProcess W Unit :=
  heap fun versions => listDelete (callDel depth) versions

variable (os : Os W)

/-- The version of a name: the registered one, or a new one if the repository has it. -/
def versionGet (name : CString) : MkProcess W (Option ℕ) := do
  let vi ← heap fun versions => versionFind name versions
  -- The repository is not asked for a version that is registered.
  if vi.isSome then return vi
  if !(← action (job os fun site => site.versionExists name)) then return none
  heap fun versions => versionCreate name versions

/-- The version at an address, as far as it is without its projects. -/
def readVersion (vi : Option ℕ) : HeapProcess VersionInf := do
  let v ← versionKind.read vi
  let name ← stringKind.read v.name
  let dirName ← stringKind.read v.dirName
  return ⟨v.arch, name, dirName, []⟩

/-- The project of a name: the registered one, or a new one if the repository has it in the
    version. -/
def projectGet (name : CString) (vi : Option ℕ) : MkProcess W (Option ℕ) := do
  let pi ← heap fun _ => projectFind name vi
  -- The repository is not asked for a project that is registered.
  if pi.isSome then return pi
  let v ← heap fun _ => readVersion vi
  if !(← action (job os fun site => site.versionHasProject v name)) then return none
  heap fun _ => projectCreate name vi

/-- Writing the architecture of a version. -/
def setArch (vi : Option ℕ) (arch : CString) : MkProcess W Unit :=
  heap fun _ => versionKind.update (fun v => { v with arch }) vi

/-- The URL of a version, from what its block holds. -/
def versionUrl (vi : Option ℕ) : MkProcess W CString := do
  let v ← heap fun _ => readVersion vi
  action (Mksh.versionUrl v)

/-- The URL of a project, from what its block and that of its version hold. -/
def projectUrl (pi : Option ℕ) : MkProcess W CString := do
  let p ← heap fun _ => projectKind.read pi
  let v ← heap fun _ => readVersion p.version
  let name ← heap fun _ => stringKind.read p.name
  action (Mksh.projectUrl v ⟨name⟩)

end Heap

end Mksh
