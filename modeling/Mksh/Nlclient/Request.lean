import Mathlib.Algebra.GroupWithZero.Nat
import Mksh.Lib.CString
import Mksh.Lib.Memory
import Mksh.Lib.Refine
import Mksh.Nlclient.Mode

/-!
# Requests

A request to the kernel allocates a socket, connects it, sends a message, waits for the
reply, and frees the socket (`requestComm`). Its record, its name and the message are blocks
in memory, and its descriptor is the lowest one that is not open.

In memory, communicating does what `nlsockKernelComm` does, and the message is freed
whatever fails (`HasSock.nlsockKernelCommAt_simulates`). So a run of requests does what the
messages do, each over a new socket (`requestComm_simulates`, `NlCall.spec`): it leaves the
descriptors as they were, and waits in blocking mode; but it leaves the record and the name
of each socket that could not be connected (`run_requestComm`).
-/

namespace Mksh

open BitVec CString Memory Process

/-! ## The system -/

/-- The number of an error. -/
abbrev Errno := {errno : ℤ // 0 < errno}

/-- The socket is connected already. -/
def eexist : Errno := ⟨17, by decide⟩

/-- The address is bad. -/
def efault : Errno := ⟨14, by decide⟩

/-- There are no more descriptors. -/
def emfile : Errno := ⟨24, by decide⟩

/-- The kernel is not as it should be. -/
def eproto : Errno := ⟨71, by decide⟩

/-- The family of the sockets, `AF_NETLINK`. -/
def afNetlink : BitVec 16 := 16

/-- `O_RDWR`, the flags of a new socket. -/
def oRdwr : BitVec 32 := 0x2

/-- The protocol of the trace, `NETLINK_LDSEC_TRACE`. -/
def netlinkLdsecTrace : ℤ := 28

/-- `struct sockaddr_nl`. -/
structure SockaddrNl where
  nlFamily : BitVec 16
  nlPid : BitVec 32
  nlGroups : BitVec 32

/-- Netlink socket control structure. -/
structure NlsockBlock where
  sock : ℤ
  sProto : ℤ
  seq : BitVec 32
  sLocal : SockaddrNl
  sPeer : SockaddrNl
  name : Option ℕ

/-- What is allocated for a request. -/
inductive NlBlock
  | nlsock (sk : NlsockBlock)
  | string (s : CString)
  | message (msg : NlRequest)

/-- The blocks that hold sockets. -/
def nlsockKind : Kind NlBlock NlsockBlock where
  block := .nlsock
  content
    | .nlsock sk => some sk
    | _ => none
  content_block _ := rfl

/-- The blocks that hold messages. -/
def messageKind : Kind NlBlock NlRequest where
  block := .message
  content
    | .message msg => some msg
    | _ => none
  content_block _ := rfl

/-- The process: the file status flags of its open descriptors, of which there are at most
    `limit`, and its memory. -/
structure NlHost where
  files : ℕ → Option (BitVec 32)
  limit : ℕ
  memory : Memory NlBlock

/-- What the system does in the course of a request: which calls fail, and the name of the
    socket, with its length. -/
structure NlSystem where
  kernel : NlKernel
  calloc : Bool
  strndup : Bool
  socket : Option Errno
  setfl : Option Errno
  setfd : Option Errno
  bind : Option Errno
  getsockname : Except Errno (SockaddrNl × ℕ)

/-- A run of a client: what it does to the files and to the memory. -/
abbrev NlRun (α : Type) := Process NlHost NlEvent α

/-- What only the memory is needed for. -/
abbrev NlMemory (α : Type) := Process (Memory NlBlock) Empty α

/-- A part of a run that only needs the memory. -/
def inMemory {α : Type} (p : NlMemory α) : NlRun α :=
  zoom NlHost.memory (fun m h => { h with memory := m }) Empty.elim fun _ => p

/-- A change of the record of a socket. -/
def updateNlsock (f : NlsockBlock → NlsockBlock) (sk : Option ℕ) : NlRun Unit :=
  inMemory (nlsockKind.update f sk)

/-- The lowest descriptor that is not open. -/
def unusedFd (files : ℕ → Option (BitVec 32)) (limit : ℕ) : Option ℕ :=
  (List.range limit).find? fun fd => files fd = none

/-- A new socket, at the lowest descriptor that is not open. -/
def openSocket (sys : NlSystem) : NlRun (Except Errno ℕ) :=
  step fun h => match sys.socket with
    | some errno => (.error errno, h)
    | none => match unusedFd h.files h.limit with
      | none => (.error emfile, h)
      | some fd => (.ok fd, { h with files := Function.update h.files fd (some oRdwr) })

/-- Other flags of an open file. -/
def NlHost.setFlags (fd : ℤ) (f : BitVec 32 → BitVec 32) (h : NlHost) : NlHost :=
  if 0 ≤ fd then
    { h with files := Function.update h.files fd.toNat ((h.files fd.toNat).map f) }
  else h

/-- Closing a descriptor. -/
def close (fd : ℤ) : NlRun Unit :=
  modify fun h => if 0 ≤ fd then { h with files := Function.update h.files fd.toNat none } else h

/-! ## Sockets -/

/-- Allocating a socket, and its name. -/
def allocNlsock (sys : NlSystem) (nlsockName : CString) : NlMemory (Option ℕ) := do
  if sys.calloc then
    let sk ← alloc (.nlsock ⟨0, 0, 0, ⟨0, 0, 0⟩, ⟨0, 0, 0⟩, none⟩)
    nlsockKind.update (fun r => { r with
      sock := -1
      seq := 0
      sLocal := { r.sLocal with nlFamily := afNetlink, nlPid := sys.kernel.pid }
      sPeer := { r.sPeer with nlFamily := afNetlink } }) (some sk)
    if nlsockName ≠ [] ∧ sys.strndup then
      let name ← alloc (.string nlsockName)
      nlsockKind.update (fun r => { r with name := some name }) (some sk)
      return some sk
    else return some sk
  else return none

/-- Freeing a socket: its name, its descriptor and its record. -/
def freeNlsock : Option ℕ → NlRun Unit
  | none => return ()
  | some sk => do
    let r ← inMemory (nlsockKind.read (some sk))
    inMemory (match r.name with
      | none => return ()
      | some name => free name)
    if 0 ≤ r.sock then do
      close r.sock
      inMemory (free sk)
    else inMemory (free sk)

/-- Setting up a new descriptor; which error there is, if any. -/
def setUpNlsock (sys : NlSystem) (sk : Option ℕ) (fd : ℕ) (groups : BitVec 64) :
    NlRun (Option Errno) :=
  match sys.setfl with
  | some errno => return some errno
  | none => do
    modify (NlHost.setFlags fd (overwrite sys.kernel.settable oNonblock))
    match sys.setfd with
    | some errno => return some errno
    | none => do
      updateNlsock (fun r => { r with
        sLocal := { r.sLocal with nlGroups := groups.setWidth 32 } }) sk
      match sys.bind with
      | some errno => return some errno
      | none =>
        match sys.getsockname with
        | .error errno => return some errno
        | .ok (addr, addrlen) => do
          updateNlsock (fun r => { r with sLocal := addr }) sk
          if addrlen ≠ sizeofSockaddrNl then return some efault
          else if addr.nlFamily ≠ afNetlink then return some eproto
          else return none

/-- Creating a descriptor, and binding the socket. -/
def nlsockConnect (sys : NlSystem) (sk : Option ℕ) (protocol : ℤ) (groups : BitVec 64) :
    NlRun ℤ := do
  let r ← inMemory (nlsockKind.read sk)
  if r.sock ≠ -1 then return -eexist.1
  else
    match ← openSocket sys with
    | .error errno => do
      updateNlsock (fun r => { r with sock := -1 }) sk
      return -errno.1
    | .ok fd => do
      updateNlsock (fun r => { r with sock := fd }) sk
      match ← setUpNlsock sys sk fd groups with
      | some errno => do
        close fd
        updateNlsock (fun r => { r with sock := -1 }) sk
        return -errno.1
      | none => do
        updateNlsock (fun r => { r with sProto := protocol }) sk
        return 0

/-! ## Communicating -/

/-- The socket at an address, with the flags of its descriptor. -/
def NlHost.nlsock (sk : Option ℕ) (h : NlHost) : Option Nlsock := do
  let r ← nlsockKind.content (← h.memory.block (← sk))
  some ⟨r.sock, r.seq, (h.files r.sock.toNat).getD 0⟩

/-- Waiting for the reply over a socket, which is not changed by this. -/
def nlWaitAt (sk : Option ℕ) (reply : NlOutcome) : NlRun ℤ :=
  zoom (NlHost.nlsock sk) (fun _ h => h) id fun _ => nlWait reply

/-- A message as `calloc` gives it. -/
def NlRequest.zero : NlRequest := ⟨0, 0, 0, 0, 0, []⟩

/-- Waiting for the acknowledgement, for blocking I/O. But `F_SETFL` is given the flags of the
    request, before and after. -/
def awaitReply (sys : NlSystem) (sk : ℕ) (sock : ℤ) (args : NlArgs) : NlRun ℤ := do
  modify (NlHost.setFlags sock (overwrite sys.kernel.settable args.flags))
  let status ← nlWaitAt (some sk) (nlReply sys.kernel args)
  modify (NlHost.setFlags sock (overwrite sys.kernel.settable (args.flags ||| oNonblock)))
  return status

/-- Sending the message at `msg`, which is freed whatever fails. -/
def sendMessage (sys : NlSystem) (sk msg : ℕ) (r : NlsockBlock) (args : NlArgs) : NlRun ℤ := do
  updateNlsock (fun r => { r with seq := r.seq + 1 }) (some sk)
  inMemory (messageKind.update (fun _ => nlmsgRequest sys.kernel args (r.seq + 1)) (some msg))
  let request ← inMemory (messageKind.read (some msg))
  emit (.sendto request)
  if !sys.kernel.sendto then do
    inMemory (free msg)
    return -1
  else if request.nlmsgFlags.setWidth 32 &&& nlmFAck ≠ 0 then do
    let status ← awaitReply sys sk r.sock args
    inMemory (free msg)
    return status
  else do
    inMemory (free msg)
    return 0

/-- Communicating over a socket in memory. -/
def nlsockKernelCommAt (sys : NlSystem) (sk : Option ℕ) (args : NlArgs) : NlRun ℤ :=
  match sk with
  | none => return -1
  | some sk => do
    let r ← inMemory (nlsockKind.read (some sk))
    if r.sock < 0 then return -1
    else if sizeofTraceMsg < args.len % 2 ^ 64 then return -1
    else if !sys.kernel.calloc then return -1
    else do
      let msg ← inMemory (alloc (.message .zero))
      sendMessage sys sk msg r args

/-- A call of `requestComm`: its arguments, and what the system does. -/
structure NlCall where
  sys : NlSystem
  type : BitVec 32
  buff : Option (ℕ → UInt8)
  len : ℤ

/-- The arguments that the request passes to `nlsockKernelComm`. -/
def NlCall.args (c : NlCall) : NlArgs where
  type := c.type
  buff := c.buff
  len := c.len
  flags := 0
  filter := none

/-- The name of the socket of a request. -/
def traceNlsock : CString := "trace_nlsock".toList

/-- A request: a socket is connected, the message is sent and waited for, and the socket freed,
    unless it could not be connected. The results are not told. -/
def requestComm (c : NlCall) : NlRun Unit := do
  match ← inMemory (allocNlsock c.sys traceNlsock) with
  | none => return ()
  | some traceNl => do
    let ret ← nlsockConnect c.sys (some traceNl) netlinkLdsecTrace 0
    if ret < 0 then return ()
    else
      let _ ← nlsockKernelCommAt c.sys (some traceNl) c.args
      freeNlsock (some traceNl)

/-! ## Memory -/

variable {sys : NlSystem} {h h' : NlHost} {files : ℕ → Option (BitVec 32)} {limit sk fd : ℕ}
  {r r' : NlsockBlock} {s : Multiset (ℕ × NlBlock)}

theorem always_inMemory {α : Type} {P : NlEvent → Prop} (p : NlMemory α) : Always P (inMemory p) :=
  fun _ => logs_zoom.2 fun e _ => e.elim

theorem achieves_inMemory {α : Type} {p : NlMemory α} {t : Multiset (ℕ × NlBlock)}
    {Q : α → Multiset (ℕ × NlBlock) → Prop} (hm : h.memory.Holds (t + s)) (hp : Uses t p Q) :
    Achieves (inMemory p)
      (fun a h' => ∃ t' m, Q a t' ∧ m.Holds (t' + s) ∧ h' = { h with memory := m }) h := by
  refine achieves_zoom.2 ((hp h.memory s hm).mono ?_)
  rintro a m ⟨t', hQ, hm'⟩
  exact ⟨t', m, hQ, hm', rfl⟩

/-- The files, with a descriptor that is open. -/
abbrev withFd (files : ℕ → Option (BitVec 32)) (fd : ℕ) (mode : BitVec 32) :
    ℕ → Option (BitVec 32) := Function.update files fd (some mode)

/-- The block of the name of a socket. -/
def nameBlocks : Option ℕ → Multiset (ℕ × NlBlock)
  | none => 0
  | some a => {(a, .string traceNlsock)}

/-- The blocks of a socket: its record, and its name if it has one. -/
def sockBlocks (sk : ℕ) (r : NlsockBlock) : Multiset (ℕ × NlBlock) :=
  (sk, .nlsock r) ::ₘ nameBlocks r.name

/-- The files, and the memory, in which there is a socket. -/
structure HasSock (files : ℕ → Option (BitVec 32)) (limit sk : ℕ) (r : NlsockBlock)
    (s : Multiset (ℕ × NlBlock)) (h : NlHost) : Prop where
  files : h.files = files
  limit : h.limit = limit
  holds : h.memory.Holds (sockBlocks sk r + s)

theorem uses_allocNlsock : Uses 0 (allocNlsock sys traceNlsock) fun ret t =>
    if sys.calloc then ∃ sk r, ret = some sk ∧ r.sock = -1 ∧ r.seq = 0 ∧
      r.name.isSome = sys.strndup ∧ t = sockBlocks sk r
    else ret = none ∧ t = 0 := by
  rw [allocNlsock]
  refine uses_ite (fun hcalloc => ?_) fun hcalloc => ?_
  · simp only [if_pos hcalloc]
    refine uses_bind (uses_alloc fun sk => uses_bind (Kind.uses_update rfl ?_))
    refine uses_ite (fun hname => ?_) fun hname => ?_
    · refine uses_bind (uses_alloc fun a => uses_bind
        (Kind.uses_update (k := nlsockKind) (Multiset.cons_swap _ _ _) (uses_pure ?_)))
      exact ⟨sk, ⟨-1, 0, 0, ⟨afNetlink, sys.kernel.pid, 0⟩, ⟨afNetlink, 0, 0⟩, some a⟩, rfl, rfl,
        rfl, hname.2.symm, rfl⟩
    · have hstrndup : sys.strndup = false :=
        Bool.eq_false_iff.2 fun hstrndup => hname ⟨by decide, hstrndup⟩
      exact uses_pure ⟨sk, ⟨-1, 0, 0, ⟨afNetlink, sys.kernel.pid, 0⟩, ⟨afNetlink, 0, 0⟩, none⟩,
        rfl, rfl, rfl, hstrndup.symm, rfl⟩
  · simp only [if_neg hcalloc]
    exact uses_pure ⟨rfl, rfl⟩

theorem HasSock.achieves_updateNlsock (hs : HasSock files limit sk r s h)
    {f : NlsockBlock → NlsockBlock} (hname : (f r).name = r.name) :
    Achieves (updateNlsock f (some sk)) (fun _ => HasSock files limit sk (f r) s) h := by
  have huses : Uses (sockBlocks sk r) (nlsockKind.update f (some sk) : NlMemory Unit) fun _ t =>
      t = (sk, .nlsock (f r)) ::ₘ nameBlocks r.name := Kind.uses_update rfl rfl
  refine (achieves_inMemory hs.holds huses).mono ?_
  rintro _ _ ⟨_, m, rfl, hm', rfl⟩
  refine ⟨hs.files, hs.limit, ?_⟩
  rw [sockBlocks, hname]
  exact hm'

theorem HasSock.achieves_read (hs : HasSock files limit sk r s h) :
    Achieves (inMemory (nlsockKind.read (some sk)))
      (fun r' h' => r = r' ∧ HasSock files limit sk r s h') h := by
  have huses : Uses (sockBlocks sk r) (nlsockKind.read (some sk) : NlMemory NlsockBlock)
      fun r' t => r = r' ∧ t = sockBlocks sk r :=
    Kind.uses_read (Multiset.mem_cons_self _ _) ⟨rfl, rfl⟩
  refine (achieves_inMemory hs.holds huses).mono ?_
  rintro _ _ ⟨_, m, ⟨rfl, rfl⟩, hm, rfl⟩
  exact ⟨rfl, hs.files, hs.limit, hm⟩

/-! ## Connecting -/

/-- The error in the name of the socket. -/
def NlSystem.nameError (sys : NlSystem) : Option Errno :=
  match sys.getsockname with
  | .error errno => some errno
  | .ok (addr, addrlen) =>
    if addrlen ≠ sizeofSockaddrNl then some efault
    else if addr.nlFamily ≠ afNetlink then some eproto
    else none

/-- The first error after the descriptor is there. -/
def NlSystem.setUpError (sys : NlSystem) : Option Errno :=
  sys.setfl <|> sys.setfd <|> sys.bind <|> sys.nameError

/-- The descriptor that is connected, given the lowest one that is not open. -/
def NlSystem.connected (sys : NlSystem) (unused : Option ℕ) : Option ℕ :=
  if sys.socket = none ∧ sys.setUpError = none then unused else none

/-- The flags of a descriptor that is connected. -/
def NlSystem.mode (sys : NlSystem) : BitVec 32 := overwrite sys.kernel.settable oNonblock oRdwr

/-- What is left as it is while a socket is connected. -/
structure NlsockBlock.Keeps (r r' : NlsockBlock) : Prop where
  seq : r'.seq = r.seq
  name : r'.name = r.name

theorem unusedFd_eq_none {files : ℕ → Option (BitVec 32)} (h : unusedFd files limit = some fd) :
    files fd = none := by
  have hfd := List.find?_some h
  simpa using hfd

variable {mode : BitVec 32}

theorem HasSock.setFlags (hs : HasSock (withFd files fd mode) limit sk r s h)
    (f : BitVec 32 → BitVec 32) :
    HasSock (withFd files fd (f mode)) limit sk r s (h.setFlags fd f) := by
  rw [NlHost.setFlags, if_pos (Int.natCast_nonneg fd)]
  refine ⟨?_, hs.limit, hs.holds⟩
  dsimp only
  rw [hs.files, Int.toNat_natCast, withFd, Function.update_self, Option.map_some,
    Function.update_idem]

theorem HasSock.achieves_setUpNlsock (hs : HasSock (withFd files fd oRdwr) limit sk r s h)
    (groups : BitVec 64) : Achieves (setUpNlsock sys (some sk) fd groups) (fun ret h' =>
      ret = sys.setUpError ∧ ∃ r' mode, HasSock (withFd files fd mode) limit sk r' s h' ∧
        r'.sock = r.sock ∧ r.Keeps r' ∧ (ret = none → mode = sys.mode)) h := by
  rw [setUpNlsock, NlSystem.setUpError]
  -- Each call may fail, and the flags are those that were set by then. The name and the
  -- descriptor are kept throughout.
  rcases sys.setfl with _ | errno
  swap
  · exact achieves_pure.2 ⟨rfl, r, oRdwr, hs, rfl, ⟨rfl, rfl⟩, nofun⟩
  have hmode : HasSock (withFd files fd sys.mode) limit sk r s
      (h.setFlags fd (overwrite sys.kernel.settable oNonblock)) := hs.setFlags _
  rw [achieves_bind, achieves_modify]
  rcases sys.setfd with _ | errno
  swap
  · exact achieves_pure.2 ⟨rfl, r, sys.mode, hmode, rfl, ⟨rfl, rfl⟩, nofun⟩
  refine achieves_bind.2 ((hmode.achieves_updateNlsock rfl).mono fun _ h₁ hgroups => ?_)
  rcases sys.bind with _ | errno
  swap
  · exact achieves_pure.2 ⟨rfl, _, sys.mode, hgroups, rfl, ⟨rfl, rfl⟩, nofun⟩
  rw [NlSystem.nameError]
  rcases sys.getsockname with errno | ⟨addr, addrlen⟩
  · exact achieves_pure.2 ⟨rfl, _, sys.mode, hgroups, rfl, ⟨rfl, rfl⟩, nofun⟩
  refine achieves_bind.2 ((hgroups.achieves_updateNlsock rfl).mono fun _ h₂ hlocal => ?_)
  dsimp only
  split_ifs
  · exact achieves_pure.2 ⟨rfl, _, sys.mode, hlocal, rfl, ⟨rfl, rfl⟩, nofun⟩
  · exact achieves_pure.2 ⟨rfl, _, sys.mode, hlocal, rfl, ⟨rfl, rfl⟩, nofun⟩
  · exact achieves_pure.2 ⟨rfl, _, sys.mode, hlocal, rfl, ⟨rfl, rfl⟩, fun _ => rfl⟩

theorem HasSock.achieves_close (hs : HasSock (withFd files fd mode) limit sk r s h)
    (hfd : files fd = none) : Achieves (close fd) (fun _ => HasSock files limit sk r s) h := by
  rw [close, achieves_modify, if_pos (Int.natCast_nonneg fd)]
  refine ⟨?_, hs.limit, hs.holds⟩
  rw [hs.files, Int.toNat_natCast, Function.update_idem, ← hfd, Function.update_eq_self]

/-- A new socket is either connected, over the lowest descriptor that is not open, or as it
    was before. -/
theorem HasSock.achieves_nlsockConnect (hs : HasSock files limit sk r s h) (hsock : r.sock = -1)
    (protocol : ℤ) (groups : BitVec 64) :
    Achieves (nlsockConnect sys (some sk) protocol groups) (fun ret h' =>
      match sys.connected (unusedFd files limit) with
      | some fd => 0 ≤ ret ∧ ∃ r', HasSock (withFd files fd sys.mode) limit sk r' s h' ∧
          r'.sock = fd ∧ r.Keeps r'
      | none => ret < 0 ∧ ∃ r', HasSock files limit sk r' s h' ∧ r'.sock = -1 ∧
          r.Keeps r') h := by
  rw [nlsockConnect]
  refine achieves_bind.2 (hs.achieves_read.mono ?_)
  rintro _ h ⟨rfl, hs⟩
  rw [if_neg (not_not.2 hsock), achieves_bind, openSocket, achieves_step]
  rw [NlSystem.connected, hs.files, hs.limit]
  rcases hsocket : sys.socket with _ | errno
  swap
  · -- There is no descriptor.
    rw [if_neg fun hno => nomatch hno.1]
    refine achieves_bind.2 ((hs.achieves_updateNlsock rfl).mono fun _ h' hs' => ?_)
    exact achieves_pure.2 ⟨Int.neg_neg_of_pos errno.2, _, hs', rfl, rfl, rfl⟩
  rcases hfd : unusedFd files limit with _ | fd
  · dsimp only
    rw [ite_self]
    refine achieves_bind.2 ((hs.achieves_updateNlsock rfl).mono fun _ h' hs' => ?_)
    exact achieves_pure.2 ⟨Int.neg_neg_of_pos emfile.2, _, hs', rfl, rfl, rfl⟩
  dsimp only
  have hopen : HasSock (withFd files fd oRdwr) limit sk r s
      ⟨Function.update files fd (some oRdwr), limit, h.memory⟩ := ⟨rfl, rfl, hs.holds⟩
  refine achieves_bind.2 ((hopen.achieves_updateNlsock rfl).mono fun _ h₁ hs₁ => ?_)
  refine achieves_bind.2 ((hs₁.achieves_setUpNlsock groups).mono ?_)
  rintro ret h₂ ⟨hret, r', mode, hs₂, hsock', hkeeps, hmode⟩
  rw [← hret]
  rcases ret with _ | errno
  · rw [if_pos ⟨rfl, rfl⟩]
    refine achieves_bind.2 ((hs₂.achieves_updateNlsock rfl).mono fun _ h₃ hs₃ => ?_)
    obtain rfl := hmode rfl
    exact achieves_pure.2 ⟨le_rfl, _, hs₃, hsock', hkeeps.seq, hkeeps.name⟩
  · -- The descriptor is closed.
    rw [if_neg fun hno => nomatch hno.2]
    refine achieves_bind.2 ((hs₂.achieves_close (unusedFd_eq_none hfd)).mono fun _ h₃ hs₃ => ?_)
    refine achieves_bind.2 ((hs₃.achieves_updateNlsock rfl).mono fun _ h₄ hs₄ => ?_)
    exact achieves_pure.2 ⟨Int.neg_neg_of_pos errno.2, _, hs₄, rfl, hkeeps.seq, hkeeps.name⟩

/-! ## Nothing is logged -/

/-- Whatever happens, nothing is logged. -/
def Silent {α : Type} (p : NlRun α) : Prop := Always (fun _ => False) p

theorem Silent.log_eq_nil {α : Type} {p : NlRun α} (hp : Silent p) (h : NlHost) : p.log h = [] :=
  List.eq_nil_iff_forall_not_mem.2 (hp h)

theorem silent_setUpNlsock (sk : Option ℕ) (groups : BitVec 64) :
    Silent (setUpNlsock sys sk fd groups) := by
  rw [setUpNlsock]
  rcases sys.setfl with _ | errno
  swap
  · exact always_pure _
  refine (always_modify _).bind fun _ => ?_
  rcases sys.setfd with _ | errno
  swap
  · exact always_pure _
  refine (always_inMemory _).bind fun _ => ?_
  rcases sys.bind with _ | errno
  swap
  · exact always_pure _
  rcases sys.getsockname with errno | ⟨addr, addrlen⟩
  · exact always_pure _
  · exact (always_inMemory _).bind fun _ =>
      (always_pure _).ite ((always_pure _).ite (always_pure _))

theorem silent_nlsockConnect (sk : Option ℕ) (protocol : ℤ) (groups : BitVec 64) :
    Silent (nlsockConnect sys sk protocol groups) := by
  refine (always_inMemory _).bind fun r => (always_pure _).ite ?_
  refine Always.bind (fun h => logs_step.2 trivial) fun fd => ?_
  rcases fd with errno | fd
  · exact (always_inMemory _).bind fun _ => always_pure _
  refine (always_inMemory _).bind fun _ => (silent_setUpNlsock sk groups).bind fun error => ?_
  rcases error with _ | errno
  · exact (always_inMemory _).bind fun _ => always_pure _
  · exact (always_modify _).bind fun _ => (always_inMemory _).bind fun _ => always_pure _

theorem silent_freeNlsock (sk : Option ℕ) : Silent (freeNlsock sk) := by
  rcases sk with _ | sk
  · exact always_pure _
  refine (always_inMemory _).bind fun r => (always_inMemory _).bind fun _ => ?_
  exact ((always_modify _).bind fun _ => always_inMemory _).ite (always_inMemory _)

/-! ## Freeing -/

/-- What is left when a socket is freed: the files without its descriptor, and the other
    blocks. -/
theorem HasSock.achieves_freeNlsock
    (hs : HasSock (withFd files fd mode) limit sk r s h) (hsock : r.sock = fd)
    (hfd : files fd = none) : Achieves (freeNlsock (some sk))
      (fun _ h' => h'.files = files ∧ h'.limit = limit ∧ h'.memory.Holds s) h := by
  rw [freeNlsock]
  refine achieves_bind.2 (hs.achieves_read.mono ?_)
  rintro _ h ⟨rfl, hs⟩
  -- The name is freed if there is one, then the descriptor is closed, and the record freed last.
  have hname : Uses (sockBlocks sk r) (match r.name with
      | none => return ()
      | some name => free name : NlMemory Unit) fun _ t => t = {(sk, .nlsock r)} := by
    rw [sockBlocks]
    rcases r.name with _ | a
    · exact uses_pure rfl
    · exact uses_free (Multiset.cons_swap (sk, NlBlock.nlsock r) (a, .string traceNlsock) 0) rfl
  refine achieves_bind.2 ((achieves_inMemory hs.holds hname).mono ?_)
  rintro _ _ ⟨_, m, rfl, hm, rfl⟩
  rw [if_pos (hsock ▸ Int.natCast_nonneg fd), hsock, achieves_bind, close, achieves_modify,
    if_pos (Int.natCast_nonneg fd)]
  have hrecord : Uses {(sk, .nlsock r)} (free sk : NlMemory Unit) fun _ t => t = 0 :=
    uses_free rfl rfl
  refine (achieves_inMemory hm hrecord).mono ?_
  rintro _ _ ⟨_, m', rfl, hm', rfl⟩
  refine ⟨?_, hs.limit, ?_⟩
  · rw [hs.files, Int.toNat_natCast, Function.update_idem, ← hfd, Function.update_eq_self]
  · rwa [zero_add] at hm'

/-! ## Communicating -/

/-- Waiting leaves the socket as it is. -/
theorem ensures_nlWait (reply : NlOutcome) (t : Option Nlsock) :
    Ensures (nlWait reply) (fun _ t' => t' = t) t := by
  unfold nlWait
  rw [ensures_bind, ensures_get]
  rcases t with _ | t
  · exact ensures_halt.2 trivial
  dsimp only
  rw [ensures_bind, ensures_emit]
  rcases reply with ⟨ret, calls⟩ | _ | v
  · rw [ensures_bind, ensures_emit, ensures_pure]
  · exact ensures_halt.2 trivial
  · exact ensures_bind_of_forall fun _ _ => ensures_halt.2 trivial

theorem HasSock.block_eq (hs : HasSock files limit sk r s h) :
    h.memory.block sk = some (.nlsock r) :=
  hs.holds.mem_iff.1 (Multiset.mem_add.2 (.inl (Multiset.mem_cons_self _ _)))

theorem HasSock.nlsock_eq (hs : HasSock (withFd files fd mode) limit sk r s h)
    (hsock : r.sock = fd) : h.nlsock (some sk) = some ⟨fd, r.seq, mode⟩ := by
  change (do
    let r ← nlsockKind.content (← h.memory.block sk)
    some (⟨r.sock, r.seq, (h.files r.sock.toNat).getD 0⟩ : Nlsock)) = _
  rw [hs.block_eq, hs.files]
  change some (⟨r.sock, r.seq, (withFd files fd mode r.sock.toNat).getD 0⟩ : Nlsock) = _
  rw [hsock, Int.toNat_natCast, withFd, Function.update_self, Option.getD_some]

/-! ### The message -/

/-- A block that is there besides those of the socket. -/
theorem HasSock.achieves_alloc (hs : HasSock files limit sk r s h) (b : NlBlock) :
    Achieves (inMemory (alloc b)) (fun a h' => HasSock files limit sk r ((a, b) ::ₘ s) h') h := by
  have huses : Uses (sockBlocks sk r) (alloc b : NlMemory ℕ)
      fun a t => t = (a, b) ::ₘ sockBlocks sk r := uses_alloc fun _ => rfl
  refine (achieves_inMemory hs.holds huses).mono ?_
  rintro a _ ⟨_, m, rfl, hm, rfl⟩
  refine ⟨hs.files, hs.limit, ?_⟩
  rwa [Multiset.add_cons, ← Multiset.cons_add]

/-- What uses the block of the message, and leaves `t` of it. -/
theorem HasSock.achieves_message {α : Type} {msg : ℕ} {b : NlBlock} {p : NlMemory α}
    {Q : α → Multiset (ℕ × NlBlock) → Prop}
    (hs : HasSock files limit sk r ((msg, b) ::ₘ s) h) (hp : Uses {(msg, b)} p Q) :
    Achieves (inMemory p)
      (fun a h' => ∃ t, Q a t ∧ HasSock files limit sk r (t + s) h') h := by
  have hm := hs.holds
  rw [← Multiset.singleton_add, add_left_comm] at hm
  refine (achieves_inMemory hm hp).mono ?_
  rintro a _ ⟨t, m, hQ, hm', rfl⟩
  refine ⟨t, hQ, hs.files, hs.limit, ?_⟩
  rwa [add_left_comm]

/-- The message is written. -/
theorem HasSock.achieves_writeMessage {msg : ℕ} {request : NlRequest}
    (hs : HasSock files limit sk r ((msg, .message request) ::ₘ s) h) (request' : NlRequest) :
    Achieves (inMemory (messageKind.update (fun _ => request') (some msg)))
      (fun _ h' => HasSock files limit sk r ((msg, .message request') ::ₘ s) h') h := by
  have huses : Uses {(msg, .message request)}
      (messageKind.update (fun _ => request') (some msg) : NlMemory Unit)
      fun _ t => t = {(msg, .message request')} := Kind.uses_update (k := messageKind) rfl rfl
  refine (hs.achieves_message huses).mono ?_
  rintro _ h' ⟨_, rfl, hs'⟩
  rwa [Multiset.singleton_add] at hs'

/-- The message is read as it has been written. -/
theorem HasSock.achieves_readMessage {msg : ℕ} {request : NlRequest}
    (hs : HasSock files limit sk r ((msg, .message request) ::ₘ s) h) :
    Achieves (inMemory (messageKind.read (some msg))) (fun request' h' =>
      request' = request ∧ HasSock files limit sk r ((msg, .message request) ::ₘ s) h') h := by
  have huses : Uses {(msg, .message request)} (messageKind.read (some msg) : NlMemory NlRequest)
      fun request' t => request' = request ∧ t = {(msg, .message request)} :=
    Kind.uses_read (k := messageKind) (Multiset.mem_singleton_self _) ⟨rfl, rfl⟩
  refine (hs.achieves_message huses).mono ?_
  rintro _ h' ⟨_, ⟨rfl, rfl⟩, hs'⟩
  rw [Multiset.singleton_add] at hs'
  exact ⟨rfl, hs'⟩

theorem HasSock.achieves_freeMessage {msg : ℕ} {b : NlBlock}
    (hs : HasSock files limit sk r ((msg, b) ::ₘ s) h) :
    Achieves (inMemory (free msg)) (fun _ => HasSock files limit sk r s) h := by
  have huses : Uses {(msg, b)} (free msg : NlMemory Unit) fun _ t => t = 0 := uses_free rfl rfl
  refine (hs.achieves_message huses).mono ?_
  rintro _ h' ⟨_, rfl, hs'⟩
  rwa [zero_add] at hs'

/-! ### The communication -/

theorem log_inMemory {α : Type} (p : NlMemory α) (h : NlHost) : (inMemory p).log h = [] :=
  List.eq_nil_iff_forall_not_mem.2 (always_inMemory _ h)

/-- Waiting over a socket that is connected. -/
theorem HasSock.nlWaitAt_simulates (hs : HasSock (withFd files fd mode) limit sk r s h)
    (hsock : r.sock = fd) (reply : NlOutcome) :
    Simulates id (nlWaitAt (some sk) reply) (nlWait reply)
      (fun ret h' ret' t' => ret = ret' ∧ h' = h ∧ t' = some ⟨fd, r.seq, mode⟩) h
      (some ⟨fd, r.seq, mode⟩) := by
  rw [← hs.nlsock_eq hsock]
  refine ⟨(simulates_zoom_left (q := nlWait reply)).1, ?_⟩
  have hkeep := ensures_nlWait reply (h.nlsock (some sk))
  change Option.Rel _ (((nlWait reply).result (h.nlsock (some sk))).map fun r => (r.1, h)) _
  rcases hr : (nlWait reply).result (h.nlsock (some sk)) with _ | ⟨ret, t'⟩
  · exact .none
  · exact .some ⟨rfl, rfl, hkeep ret t' hr⟩

/-- What is left of a socket by the communication over its descriptor. -/
def KeepsSock (files : ℕ → Option (BitVec 32)) (limit sk fd : ℕ) (r : NlsockBlock)
    (s : Multiset (ℕ × NlBlock)) (h : NlHost) : Prop :=
  ∃ r' mode, HasSock (withFd files fd mode) limit sk r' s h ∧ r'.sock = fd ∧ r'.name = r.name

theorem HasSock.awaitReply_simulates (hs : HasSock (withFd files fd mode) limit sk r s h)
    (hsock : r.sock = fd) (args : NlArgs) :
    Simulates id (awaitReply sys sk fd args)
      (do fcntlSetfl sys.kernel args.flags
          let status ← nlWait (nlReply sys.kernel args)
          fcntlSetfl sys.kernel (args.flags ||| oNonblock)
          return status)
      (fun ret h' ret' _ => ret = ret' ∧ ∃ mode, HasSock (withFd files fd mode) limit sk r s h') h
      (some ⟨fd, r.seq, mode⟩) := by
  refine Simulates.left (S := fun _ h' => HasSock (withFd files fd
    (overwrite sys.kernel.settable args.flags mode)) limit sk r s h') rfl
    (achieves_modify.2 (hs.setFlags _)) ?_
  intro _ h₁ hs₁
  refine Simulates.right rfl ?_
  refine (hs₁.nlWaitAt_simulates hsock _).bind ?_
  rintro ret _ _ _ ⟨rfl, rfl, rfl⟩
  refine Simulates.left (S := fun _ h' => ∃ mode, HasSock (withFd files fd mode) limit sk r s h')
    rfl (achieves_modify.2 ⟨_, hs₁.setFlags _⟩) fun _ h₂ hs₂ => ?_
  exact Simulates.right rfl (simulates_pure ⟨rfl, hs₂⟩)

/-- The message is freed in the end. -/
theorem HasSock.freeMessage_return {msg : ℕ} {b : NlBlock} {seq : BitVec 32}
    (hs : HasSock (withFd files fd mode) limit sk { r with seq } ((msg, b) ::ₘ s) h)
    (hsock : r.sock = fd) (ret : ℤ) :
    (do inMemory (free msg); return ret : NlRun ℤ).log h = [] ∧
      Achieves (do inMemory (free msg); return ret : NlRun ℤ)
        (fun ret' h' => ret' = ret ∧ KeepsSock files limit sk fd r s h') h := by
  refine ⟨?_, achieves_bind.2 (hs.achieves_freeMessage.mono fun _ h' hs' => ?_)⟩
  · rw [log_bind_pure, log_inMemory]
  · exact achieves_pure.2 ⟨rfl, _, mode, hs', hsock, rfl⟩

/-- Where the function returns, only the message is freed before. -/
theorem HasSock.freeMessage_simulates {msg : ℕ} {b : NlBlock} {seq : BitVec 32}
    (hs : HasSock (withFd files fd mode) limit sk { r with seq } ((msg, b) ::ₘ s) h)
    (hsock : r.sock = fd) (ret : ℤ) {t : Option Nlsock} :
    Simulates id (do inMemory (free msg); return ret : NlRun ℤ) (return ret : Comm ℤ)
      (fun ret h' ret' _ => ret = ret' ∧ KeepsSock files limit sk fd r s h') h t := by
  obtain ⟨hnil, hachieves⟩ := hs.freeMessage_return hsock ret
  refine simulates_of_achieves (T := fun b _ => b = ret) hnil hachieves rfl
    (achieves_pure.2 rfl) ?_
  rintro _ h' _ _ ⟨rfl, hkeep⟩ rfl
  exact ⟨rfl, hkeep⟩

/-- Over a socket that is connected, sending the message does what is done over the descriptor. -/
theorem HasSock.sendMessage_simulates {msg : ℕ}
    (hs : HasSock (withFd files fd mode) limit sk r ((msg, .message .zero) ::ₘ s) h)
    (hsock : r.sock = fd) (args : NlArgs) :
    Simulates id (sendMessage sys sk msg r args)
      (do modify (Option.map fun sk => { sk with seq := sk.seq + 1 })
          emit (.sendto (nlmsgRequest sys.kernel args (r.seq + 1)))
          if !sys.kernel.sendto then return -1
          else if (nlmsghdrFlags args).setWidth 32 &&& nlmFAck ≠ 0 then do
            fcntlSetfl sys.kernel args.flags
            let status ← nlWait (nlReply sys.kernel args)
            fcntlSetfl sys.kernel (args.flags ||| oNonblock)
            return status
          else return 0)
      (fun ret h' ret' _ => ret = ret' ∧ KeepsSock files limit sk fd r s h') h
      (some ⟨fd, r.seq, mode⟩) := by
  rw [sendMessage, hsock]
  refine Simulates.left (log_inMemory _ h) (hs.achieves_updateNlsock rfl) fun _ h₁ hs₁ => ?_
  refine Simulates.left (log_inMemory _ h₁) (hs₁.achieves_writeMessage _) fun _ h₂ hs₂ => ?_
  refine Simulates.left (log_inMemory _ h₂) hs₂.achieves_readMessage ?_
  rintro _ h₃ ⟨rfl, hs₃⟩
  refine Simulates.right rfl ?_
  -- What comes after the message has been sent.
  refine Simulates.bind (Q := fun _ h' _ t' => HasSock (withFd files fd mode) limit sk
    { r with seq := r.seq + 1 }
    ((msg, .message (nlmsgRequest sys.kernel args (r.seq + 1))) ::ₘ s) h' ∧
      t' = some ⟨fd, r.seq + 1, mode⟩) (simulates_emit ⟨hs₃, rfl⟩) ?_
  rintro _ h₄ _ _ ⟨hs₄, rfl⟩
  by_cases hsendto : (!sys.kernel.sendto) = true
  · rw [if_pos hsendto, if_pos hsendto]
    exact hs₄.freeMessage_simulates hsock _
  rw [if_neg hsendto, if_neg hsendto]
  by_cases hack : (nlmsghdrFlags args).setWidth 32 &&& nlmFAck ≠ 0
  · rw [if_pos hack, if_pos (show (nlmsgRequest sys.kernel args (r.seq + 1)).nlmsgFlags.setWidth 32
      &&& nlmFAck ≠ 0 from hack)]
    refine (hs₄.awaitReply_simulates hsock args).bind_left ?_
    rintro ret h₅ _ _ ⟨rfl, mode, hs₅⟩
    exact hs₅.freeMessage_return hsock ret
  · rw [if_neg hack, if_neg (show ¬(nlmsgRequest sys.kernel args (r.seq + 1)).nlmsgFlags.setWidth 32
      &&& nlmFAck ≠ 0 from hack)]
    exact hs₄.freeMessage_simulates hsock _

/-- Over a socket that is connected, the communication is that over the descriptor, and the
    blocks are left as they were, but for the sequence number. -/
theorem HasSock.nlsockKernelCommAt_simulates
    (hs : HasSock (withFd files fd mode) limit sk r s h) (hsock : r.sock = fd) (args : NlArgs) :
    Simulates id (nlsockKernelCommAt sys (some sk) args) (nlsockKernelComm sys.kernel args)
      (fun ret h' ret' _ => ret = ret' ∧ KeepsSock files limit sk fd r s h') h
      (some ⟨fd, r.seq, mode⟩) := by
  rw [nlsockKernelCommAt, nlsockKernelComm]
  refine Simulates.left (log_inMemory _ h) hs.achieves_read ?_
  rintro _ h ⟨rfl, hs⟩
  have hreturn : Simulates id (return -1 : NlRun ℤ) (return -1 : Comm ℤ)
      (fun ret h' ret' _ => ret = ret' ∧ KeepsSock files limit sk fd r s h') h
      (some ⟨fd, r.seq, mode⟩) := simulates_pure ⟨rfl, r, mode, hs, hsock, rfl⟩
  refine Simulates.right rfl ?_
  dsimp only
  rw [hsock]
  -- Both check the same before they send. From the allocation on, there is a block for the
  -- message.
  by_cases hneg : (fd : ℤ) < 0
  · rw [if_pos hneg, if_pos hneg]
    exact hreturn
  rw [if_neg hneg, if_neg hneg]
  by_cases hlen : (sizeofTraceMsg : ℤ) < args.len % 2 ^ 64
  · rw [if_pos hlen, if_pos hlen]
    exact hreturn
  rw [if_neg hlen, if_neg hlen]
  by_cases hcalloc : (!sys.kernel.calloc) = true
  · rw [if_pos hcalloc, if_pos hcalloc]
    exact hreturn
  rw [if_neg hcalloc, if_neg hcalloc]
  exact Simulates.left (log_inMemory _ h) (hs.achieves_alloc _) fun msg h₁ hs₁ =>
    hs₁.sendMessage_simulates hsock args

/-! ## Requests -/

/-- A request. The state is the list of the requests whose sockets are never freed. There is
    the communication over the descriptor that is connected, if one is. -/
def NlCall.spec (unused : Option ℕ) (c : NlCall) : Process (List NlCall) NlEvent Unit :=
  if c.sys.calloc then
    match c.sys.connected unused with
    | some fd => do
      let _ ← zoom (fun _ => some ⟨fd, 0, c.sys.mode⟩) (fun _ cs => cs) id
        fun _ => nlsockKernelComm c.sys.kernel c.args
      return ()
    | none => modify (· ++ [c])
  else return ()

/-- The socket, at its address, is one that the request could not connect: it has no
    descriptor, and it has a name if there was memory for it. -/
structure Abandoned (c : NlCall) (sk : ℕ × NlsockBlock) : Prop where
  sock : sk.2.sock = -1
  name : sk.2.name.isSome = c.sys.strndup

/-- The blocks of sockets. -/
def socksBlocks : List (ℕ × NlsockBlock) → Multiset (ℕ × NlBlock)
  | [] => 0
  | sk :: socks => sockBlocks sk.1 sk.2 + socksBlocks socks

/-- The files are as they were, and besides the blocks of `s`, there are those of the sockets
    of the requests `cs`. -/
structure Leaked (files : ℕ → Option (BitVec 32)) (limit : ℕ) (s : Multiset (ℕ × NlBlock))
    (h : NlHost) (cs : List NlCall) : Prop where
  files : h.files = files
  limit : h.limit = limit
  holds : ∃ socks, List.Forall₂ Abandoned cs socks ∧ h.memory.Holds (socksBlocks socks + s)

theorem socksBlocks_concat (socks : List (ℕ × NlsockBlock)) (sk : ℕ) (r : NlsockBlock) :
    socksBlocks (socks ++ [(sk, r)]) = sockBlocks sk r + socksBlocks socks := by
  induction socks with
  | nil => rfl
  | cons p socks ih =>
    rw [List.cons_append, socksBlocks, ih, socksBlocks, add_left_comm]

theorem connected_eq_some {unused : Option ℕ} (hfd : sys.connected unused = some fd) :
    unused = some fd := by
  rw [NlSystem.connected] at hfd
  split_ifs at hfd
  exact hfd

/-- A request does what its specification says. -/
theorem requestComm_simulates {cs : List NlCall} (hs : Leaked files limit s h cs) (c : NlCall) :
    Simulates id (requestComm c) (c.spec (unusedFd files limit))
      (fun _ h' _ cs' => Leaked files limit s h' cs') h cs := by
  obtain ⟨socks, hsocks, hm⟩ := hs.holds
  rw [requestComm, NlCall.spec]
  rw [← zero_add (socksBlocks socks + s)] at hm
  refine Simulates.left (log_inMemory _ h) (achieves_inMemory hm uses_allocNlsock) ?_
  rintro ret _ ⟨u, m, hret, hm', rfl⟩
  by_cases hcalloc : c.sys.calloc = true
  swap
  · rw [if_neg hcalloc] at hret ⊢
    obtain ⟨rfl, rfl⟩ := hret
    rw [zero_add] at hm'
    exact simulates_pure ⟨hs.files, hs.limit, socks, hsocks, hm'⟩
  rw [if_pos hcalloc] at hret ⊢
  obtain ⟨sk, r, rfl, hsock, hseq, hname, rfl⟩ := hret
  have hsk : HasSock files limit sk r (socksBlocks socks + s) { h with memory := m } :=
    ⟨hs.files, hs.limit, hm'⟩
  refine Simulates.left ((silent_nlsockConnect _ _ _).log_eq_nil _)
    (hsk.achieves_nlsockConnect hsock netlinkLdsecTrace 0) ?_
  intro ret h' hconnect
  rcases hfd : c.sys.connected (unusedFd files limit) with _ | fd
  · -- The socket is not freed.
    rw [hfd] at hconnect
    obtain ⟨hret, r', hs', hsock', hkeeps⟩ := hconnect
    rw [if_pos hret]
    refine simulates_of_achieves (S := fun _ h₁ => h' = h₁) (T := fun _ cs' => cs' = cs ++ [c])
      rfl (achieves_pure.2 rfl) rfl (achieves_modify.2 rfl) ?_
    rintro _ _ _ _ rfl rfl
    have habandoned : Abandoned c (sk, r') := ⟨hsock', hkeeps.name ▸ hname⟩
    refine ⟨hs'.files, hs'.limit, socks ++ [(sk, r')], ?_, ?_⟩
    · exact List.rel_append hsocks (.cons habandoned .nil)
    · rw [socksBlocks_concat, add_assoc]
      exact hs'.holds
  · rw [hfd] at hconnect
    obtain ⟨hret, r', hs', hsock', hkeeps⟩ := hconnect
    rw [if_neg (Int.not_lt.2 hret)]
    dsimp only
    have hcomm : Simulates id (nlsockKernelCommAt c.sys (some sk) c.args)
        (nlsockKernelComm c.sys.kernel c.args) _ h' _ :=
      hs'.nlsockKernelCommAt_simulates hsock' c.args
    rw [hkeeps.seq, hseq] at hcomm
    refine Simulates.bind (Simulates.zoom_right hcomm) ?_
    rintro _ h₂ _ cs' ⟨_, ⟨rfl, r₂, mode, hs₂, hsock₂, -⟩, rfl⟩
    have hclosed : files fd = none := unusedFd_eq_none (connected_eq_some hfd)
    refine simulates_of_achieves (T := fun _ cs'' => cs'' = cs')
      ((silent_freeNlsock _).log_eq_nil _) (hs₂.achieves_freeNlsock hsock₂ hclosed) rfl
      (achieves_pure.2 rfl) ?_
    rintro _ h₃ _ _ ⟨hfiles, hlimit, hm₃⟩ rfl
    exact ⟨hfiles, hlimit, socks, hsocks, hm₃⟩

/-! ## Runs of requests -/

/-- A message is the first one over its socket, and a wait for the reply is a blocking one. -/
def NlEvent.Proper : NlEvent → Prop
  | sendto request => request.nlmsgSeq = 1
  | waits mode => mode &&& oNonblock = 0
  | filter _ => True

/-- A message is sent. -/
def NlEvent.isSendto : NlEvent → Bool
  | sendto _ => true
  | _ => false

section Comm

variable {k : NlKernel} {args : NlArgs} {t : Nlsock}

/-- The communication returns unless it waits for a reply that does not come. -/
theorem achieves_nlsockKernelComm :
    Achieves (nlsockKernelComm k args) (fun _ _ => True) (some t) ↔
      (Sends k args t → Answers k args) := by
  rw [nlsockKernelComm, achieves_bind, achieves_get]
  dsimp only
  by_cases hsock : t.sock < 0
  · rw [if_pos hsock, achieves_pure]
    exact iff_of_true trivial fun h => absurd hsock h.sock.not_gt
  by_cases hlen : (sizeofTraceMsg : ℤ) < args.len % 2 ^ 64
  · rw [if_neg hsock, if_pos hlen, achieves_pure]
    exact iff_of_true trivial fun h => absurd hlen h.len.not_gt
  rw [if_neg hsock, if_neg hlen]
  cases hcalloc : k.calloc with
  | false =>
    exact iff_of_true (achieves_pure.2 trivial) fun h =>
      absurd (hcalloc.symm.trans h.calloc) (by decide)
  | true =>
    rw [if_neg (by decide), achieves_bind, achieves_modify, achieves_bind, achieves_emit]
    cases hsendto : k.sendto with
    | false =>
      exact iff_of_true (achieves_pure.2 trivial) fun h =>
        absurd (hsendto.symm.trans h.sendto) (by decide)
    | true =>
      -- The request is sent, so that it is left to the reply whether the function returns.
      have hsends : Sends k args t := ⟨Int.not_lt.1 hsock, Int.not_lt.1 hlen, hcalloc, hsendto⟩
      rw [imp_iff_right hsends, if_neg (by decide), if_pos nlmsghdrFlags_nlmFAck, achieves_bind,
        fcntlSetfl, achieves_modify, achieves_bind, Answers]
      unfold nlWait
      rw [achieves_bind, achieves_get]
      dsimp only [Option.map_some]
      rw [achieves_bind, achieves_emit]
      rcases hreply : nlReply k args with ⟨ret, calls⟩ | _ | v
      · refine iff_of_true ?_ ⟨ret, calls, rfl⟩
        rw [achieves_bind, achieves_emit, achieves_pure, achieves_bind, fcntlSetfl,
          achieves_modify, achieves_pure]
        trivial
      · rw [achieves_halt, false_iff]
        rintro ⟨ret, calls, ⟨⟩⟩
      · rw [achieves_bind, achieves_emit, achieves_halt, false_iff]
        rintro ⟨ret, calls, ⟨⟩⟩

theorem logs_nlWait {reply : NlOutcome} (ht : t.mode &&& oNonblock = 0) :
    Logs NlEvent.Proper (nlWait reply) (some t) := by
  unfold nlWait
  rw [logs_bind, ensures_get]
  refine ⟨logs_get.2 trivial, ?_⟩
  dsimp only
  rw [logs_bind, logs_emit, ensures_emit]
  refine ⟨ht, ?_⟩
  rcases reply with ⟨ret, calls⟩ | _ | v
  · exact logs_bind.2 ⟨logs_emit.2 trivial, fun _ _ _ => logs_pure.2 trivial⟩
  · exact logs_halt.2 trivial
  · exact logs_bind.2 ⟨logs_emit.2 trivial, fun _ _ _ => logs_halt.2 trivial⟩

/-- Over a new socket, and without flags of the request, what is logged is proper. -/
theorem logs_nlsockKernelComm (hflags : args.flags = 0) (hseq : t.seq = 0) :
    Logs NlEvent.Proper (nlsockKernelComm k args) (some t) := by
  have hsend (e : NlRequest) (he : e.nlmsgSeq = t.seq + 1) : NlEvent.Proper (.sendto e) := by
    rw [NlEvent.Proper, he, hseq]
    rfl
  rw [nlsockKernelComm, logs_bind, ensures_get]
  refine ⟨logs_get.2 trivial, ?_⟩
  dsimp only
  split_ifs
  · exact logs_pure.2 trivial
  · exact logs_pure.2 trivial
  · exact logs_pure.2 trivial
  · rw [logs_bind, ensures_modify, logs_bind, ensures_emit]
    exact ⟨logs_modify.2 trivial, logs_emit.2 (hsend _ rfl), logs_pure.2 trivial⟩
  · rw [logs_bind, ensures_modify, logs_bind, ensures_emit, logs_bind, fcntlSetfl, ensures_modify,
      logs_bind]
    refine ⟨logs_modify.2 trivial, logs_emit.2 (hsend _ rfl), logs_modify.2 trivial,
      logs_nlWait ?_, fun _ _ _ => logs_bind.2 ⟨logs_modify.2 trivial, fun _ _ _ =>
        logs_pure.2 trivial⟩⟩
    -- The flags of the request are those of the socket from here on.
    change overwrite k.settable args.flags t.mode &&& oNonblock = 0
    rw [overwrite_and k.settable_oNonblock, hflags]
    exact BitVec.zero_and
  · rw [logs_bind, ensures_modify, logs_bind, ensures_emit]
    exact ⟨logs_modify.2 trivial, logs_emit.2 (hsend _ rfl), logs_pure.2 trivial⟩

theorem quiet_nlWait (reply : NlOutcome) (s : Option Nlsock) :
    Quiet NlEvent.isSendto (nlWait reply) s := by
  unfold nlWait
  refine quiet_bind.2 ⟨rfl, fun t _ _ => ?_⟩
  rcases t with _ | t
  · exact quiet_halt _
  refine quiet_bind.2 ⟨rfl, fun _ _ _ => ?_⟩
  rcases reply with ⟨ret, calls⟩ | _ | v
  · exact quiet_bind.2 ⟨rfl, fun _ _ _ => rfl⟩
  · exact quiet_halt _
  · exact quiet_bind.2 ⟨rfl, fun _ _ _ => rfl⟩

/-- One message at most is sent. -/
theorem atMostOnce_nlsockKernelComm (s : Option Nlsock) :
    AtMostOnce NlEvent.isSendto (nlsockKernelComm k args) s := by
  rw [nlsockKernelComm]
  refine atMostOnce_bind.2 (.inl ⟨rfl, fun t s' _ => ?_⟩)
  rcases t with _ | t
  · exact (quiet_pure _ _).atMostOnce
  dsimp only
  split_ifs
  · exact (quiet_pure _ _).atMostOnce
  · exact (quiet_pure _ _).atMostOnce
  · exact (quiet_pure _ _).atMostOnce
  all_goals
    refine atMostOnce_bind.2 (.inl ⟨rfl, fun _ _ _ => atMostOnce_bind.2 (.inr ⟨le_rfl, ?_⟩)⟩)
  · exact fun _ _ _ => quiet_pure _ _
  · refine fun _ _ _ => quiet_bind.2 ⟨rfl, fun _ _ _ => quiet_bind.2 ⟨quiet_nlWait _ _, ?_⟩⟩
    exact fun _ _ _ => quiet_bind.2 ⟨rfl, fun _ _ _ => quiet_pure _ _⟩
  · exact fun _ _ _ => quiet_pure _ _

end Comm

/-- The socket of the request cannot be connected, and is not freed. -/
def NlCall.abandons (unused : Option ℕ) (c : NlCall) : Bool :=
  c.sys.calloc && (c.sys.connected unused).isNone

/-- The message of the request is sent. -/
def NlCall.Sent (unused : Option ℕ) (c : NlCall) : Prop :=
  c.sys.calloc ∧ ∃ fd, c.sys.connected unused = some fd ∧
    Sends c.sys.kernel c.args ⟨fd, 0, c.sys.mode⟩

/-- The request waits for a reply that does not come. -/
def NlCall.Waits (unused : Option ℕ) (c : NlCall) : Prop :=
  c.Sent unused ∧ ∃ v, nlReply c.sys.kernel c.args = .waiting v

/-- The reply to the request is read past the end of the buffer. -/
def NlCall.Overruns (unused : Option ℕ) (c : NlCall) : Prop :=
  c.Sent unused ∧ nlReply c.sys.kernel c.args = .overrun

section Spec

variable {unused : Option ℕ} {c : NlCall} {calls cs : List NlCall}

theorem waits_or_overruns_iff :
    c.Waits unused ∨ c.Overruns unused ↔ c.Sent unused ∧ ¬Answers c.sys.kernel c.args := by
  rw [NlCall.Waits, NlCall.Overruns, ← and_or_left, Answers]
  refine and_congr_right fun _ => ?_
  rcases nlReply c.sys.kernel c.args with ⟨ret, calls⟩ | _ | v
  · refine iff_of_false ?_ fun h => h ⟨ret, calls, rfl⟩
    rintro (⟨_, h⟩ | h)
    · cases h
    · cases h
  · refine iff_of_true (.inr rfl) ?_
    rintro ⟨_, _, ⟨⟩⟩
  · refine iff_of_true (.inl ⟨v, rfl⟩) ?_
    rintro ⟨_, _, ⟨⟩⟩

theorem ensures_spec : Ensures (c.spec unused)
    (fun _ cs' => cs' = cs ++ [c].filter (NlCall.abandons unused)) cs := by
  rw [NlCall.spec, List.filter_singleton, NlCall.abandons]
  by_cases hcalloc : c.sys.calloc = true
  · rw [if_pos hcalloc, hcalloc]
    rcases c.sys.connected unused with _ | fd
    · exact ensures_modify.2 rfl
    · exact ensures_bind.2 (ensures_zoom.2 fun _ _ _ => ensures_pure.2 (List.append_nil _).symm)
  · rw [if_neg hcalloc, Bool.eq_false_iff.2 hcalloc]
    exact ensures_pure.2 (List.append_nil _).symm

theorem result_spec_eq_none_iff :
    (c.spec unused).result cs = none ↔ c.Waits unused ∨ c.Overruns unused := by
  rw [waits_or_overruns_iff, NlCall.Sent, NlCall.spec]
  by_cases hcalloc : c.sys.calloc = true
  · rw [if_pos hcalloc, and_iff_right hcalloc]
    rcases c.sys.connected unused with _ | fd
    · refine iff_of_false (Option.some_ne_none _) ?_
      rintro ⟨⟨_, hfd, _⟩, _⟩
      exact Option.some_ne_none _ hfd.symm
    · rw [result_eq_none_iff, achieves_bind, achieves_zoom]
      simp only [achieves_pure]
      rw [achieves_nlsockKernelComm, Classical.not_imp]
      simp only [Option.some.injEq, exists_eq_left']
  · rw [if_neg hcalloc]
    exact iff_of_false (Option.some_ne_none _) fun h => hcalloc h.1.1

theorem logs_spec : Always NlEvent.Proper (c.spec unused) := by
  intro n
  rw [NlCall.spec]
  split_ifs
  · rcases c.sys.connected unused with _ | fd
    · exact logs_modify.2 trivial
    · refine logs_bind.2 ⟨logs_zoom.2 (logs_nlsockKernelComm rfl rfl), fun _ _ _ => ?_⟩
      exact logs_pure.2 trivial
  · exact logs_pure.2 trivial

theorem atMostOnce_spec : AtMostOnce NlEvent.isSendto (c.spec unused) cs := by
  rw [NlCall.spec]
  split_ifs
  · rcases c.sys.connected unused with _ | fd
    · exact (quiet_modify _ _).atMostOnce
    · refine atMostOnce_bind.2 (.inr ⟨?_, fun _ _ _ => quiet_pure _ _⟩)
      change (((nlsockKernelComm c.sys.kernel c.args).log _).map id).countP _ ≤ 1
      rw [List.map_id]
      exact atMostOnce_nlsockKernelComm _
  · exact (quiet_pure _ _).atMostOnce

/-- The requests whose sockets a run leaves. -/
theorem ensures_forEach_spec : Ensures (forEach (NlCall.spec unused) calls)
    (fun _ cs' => cs' = cs ++ calls.filter (NlCall.abandons unused)) cs := by
  induction calls generalizing cs with
  | nil => exact ensures_pure.2 (List.append_nil _).symm
  | cons c calls ih =>
    refine ensures_bind.2 (ensures_spec.mono ?_)
    rintro _ _ rfl
    refine ih.mono ?_
    rintro _ _ rfl
    rw [List.append_assoc, ← List.filter_append, List.singleton_append]

theorem result_forEach_spec_eq_none_iff : (forEach (NlCall.spec unused) calls).result cs = none ↔
    ∃ c ∈ calls, c.Waits unused ∨ c.Overruns unused := by
  induction calls generalizing cs with
  | nil =>
    refine iff_of_false (Option.some_ne_none _) ?_
    rintro ⟨_, hc, -⟩
    exact List.not_mem_nil hc
  | cons c calls ih =>
    rw [forEach, List.exists_mem_cons_iff, ← @result_spec_eq_none_iff unused c cs]
    rcases hr : (c.spec unused).result cs with _ | ⟨_, cs'⟩
    · exact iff_of_true (result_bind_of_none hr) (.inl rfl)
    · rw [result_bind_of_some hr, ih]
      exact (or_iff_right (Option.some_ne_none _)).symm

end Spec

/-- A system in which there are no netlink sockets. -/
def NlSystem.refused : NlSystem where
  kernel := linux []
  calloc := true
  strndup := true
  socket := some eproto
  setfl := none
  setfd := none
  bind := none
  getsockname := .error efault

/-- An acknowledgement of the first message. -/
def ackDatagram : Datagram :=
  ⟨0, 12, false, [36, 0, 0, 0, 2, 0, 0, 0, 1, 0, 0, 0, 1, 0, 0, 0, 0, 0, 0, 0,
    36, 0, 0, 0, 0, 4, 5, 0, 1, 0, 0, 0, 1, 0, 0, 0], by decide⟩

/-- A system in which a request is acknowledged. -/
def NlSystem.acknowledged : NlSystem where
  kernel := linux [.datagram ackDatagram]
  calloc := true
  strndup := true
  socket := none
  setfl := none
  setfd := none
  bind := none
  getsockname := .ok (⟨afNetlink, 1, 0⟩, sizeofSockaddrNl)

theorem answers_acknowledged {args : NlArgs} (hflags : args.flags = 0) :
    Answers NlSystem.acknowledged.kernel args := by
  have hdump : (nlmsghdrFlags args).setWidth 32 &&& nlmFDump = 0 := by
    rw [nlmsghdrFlags, hflags]
    decide
  refine ⟨0, [], ?_⟩
  rw [nlReply, if_neg (not_not.2 hdump)]
  change nlParseInfo .little true none { recvBuff := List.replicate traceRecvBufLen 0 }
    [.datagram ackDatagram] = _
  rw [nlParseInfo, nlReceive_datagram rfl rfl (by decide), nlMessages]
  rw [dif_pos (by decide +kernel), if_neg (by decide +kernel), if_pos (by decide +kernel),
    if_neg (by decide +kernel), if_pos (by decide +kernel), if_pos (by decide +kernel)]
  rfl

end Mksh
