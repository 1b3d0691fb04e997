import Mathlib.Algebra.Group.Int.Defs
import Mksh.Lib.Ensures
import Mksh.Lib.Mask
import Mksh.Nlclient.Basic

/-!
# The mode of the socket

The function that sends a request to the kernel, and waits for the reply (`nlsockKernelComm`). It
is meant to make the socket blocking while it waits, and to restore the mode after. But it sets
the mode from the flags of the request, which are of another kind. So it does both if and only if
these flags happen to be those of the socket (`keepsMode_iff`).
-/

namespace Mksh

open BitVec Bytes Process

/-- The file status flag `O_APPEND`. -/
def oAppend : BitVec 32 := 0x400

/-- The file status flag `O_NONBLOCK`: calls do not wait. -/
def oNonblock : BitVec 32 := 0x800

/-- The flag of a request. -/
def nlmFRequest : BitVec 32 := 0x1

/-- The flag that asks for an acknowledgement. -/
def nlmFAck : BitVec 32 := 0x4

/-- The flags that ask for a dump. -/
def nlmFDump : BitVec 32 := 0x300

/-- The size of the message that is allocated, with room for its data. -/
def sizeofTraceMsg : ℕ := 1060

/-- What the kernel does: which file status flags can be set, whether there is memory, and what
    comes of sending and of receiving, with what is on the stack before. -/
structure NlKernel where
  order : Order
  settable : BitVec 32
  pid : BitVec 32
  calloc : Bool
  sendto : Bool
  recvmsg : List Recv
  stack : List UInt8
  settable_oNonblock : settable &&& oNonblock = oNonblock
  settable_oAppend : settable &&& oAppend = oAppend

/-- A socket, with its file status flags. -/
structure Nlsock where
  sock : ℤ
  seq : BitVec 32
  mode : BitVec 32

/-- A message to the kernel. -/
structure NlRequest where
  nlmsgLen : ℕ
  nlmsgType : BitVec 16
  nlmsgFlags : BitVec 16
  nlmsgPid : BitVec 32
  nlmsgSeq : BitVec 32
  data : List UInt8

/-- What is observed: sending a request, waiting for the reply in some mode, and the calls of the
    filter. -/
inductive NlEvent
  | sendto (request : NlRequest)
  | waits (mode : BitVec 32)
  | filter (calls : List FilterCall)

/-- The arguments: `buff` is the memory at the data, if there are some. -/
structure NlArgs where
  type : BitVec 32
  buff : Option (ℕ → UInt8)
  len : ℤ
  flags : BitVec 32
  filter : Option DumpFilter

/-- Communication over a socket, or over `NULL`. -/
abbrev Comm (α : Type) := Process (Option Nlsock) NlEvent α

variable (k : NlKernel) (args : NlArgs)

/-- The flags of the request, as far as they fit in the header. -/
def nlmsghdrFlags : BitVec 16 := (args.flags ||| nlmFRequest ||| nlmFAck).setWidth 16

/-- The request that is sent. -/
def nlmsgRequest (seq : BitVec 32) : NlRequest where
  nlmsgLen := sizeofNlmsghdr + args.len.toNat
  nlmsgType := args.type.setWidth 16
  nlmsgFlags := nlmsghdrFlags args
  nlmsgPid := k.pid
  nlmsgSeq := seq
  data := match args.buff with
    | none => List.replicate args.len.toNat 0
    | some buff => (List.range args.len.toNat).map buff

/-- The reply: that to a dump goes to the filter. -/
def nlReply : NlOutcome :=
  if (nlmsghdrFlags args).setWidth 32 &&& nlmFDump ≠ 0 then
    nlParseInfo k.order false args.filter { recvBuff := k.stack } k.recvmsg
  else nlParseInfo k.order true none { recvBuff := k.stack } k.recvmsg

/-- Setting the file status flags. -/
def fcntlSetfl (arg : BitVec 32) : Comm PUnit :=
  modify (Option.map fun sk => { sk with mode := overwrite k.settable arg sk.mode })

/-- Waiting for the reply, which may not come. -/
def nlWait (reply : NlOutcome) : Comm ℤ := do
  match ← get with
  | none => halt
  | some sk =>
    emit (.waits sk.mode)
    match reply with
    | .returns ret calls => do
      emit (.filter calls)
      return ret
    | .overrun => halt
    | .waiting v => do
      emit (.filter v.calls)
      halt

/-- Communicating with the kernel. The block of the message, which is freed on both ways out, is
    left to `nlsockKernelCommAt`: here, it only matters whether there is memory for it. -/
def nlsockKernelComm : Comm ℤ := do
  match ← get with
  | none => return -1
  | some sk =>
    if sk.sock < 0 then return -1
    -- The length is compared as a `size_t`.
    else if sizeofTraceMsg < args.len % 2 ^ 64 then return -1
    else if !k.calloc then return -1
    else do
      modify (Option.map fun sk => { sk with seq := sk.seq + 1 })
      emit (.sendto (nlmsgRequest k args (sk.seq + 1)))
      if !k.sendto then return -1
      else if (nlmsghdrFlags args).setWidth 32 &&& nlmFAck ≠ 0 then do
        -- The flags for blocking I/O, which are not the ones that are set.
        let _sockFlags := sk.mode &&& ~~~oNonblock
        fcntlSetfl k args.flags
        let status ← nlWait (nlReply k args)
        fcntlSetfl k (args.flags ||| oNonblock)
        return status
      else return 0

/-! ## The mode -/

variable {k : NlKernel} {args : NlArgs} {sk : Nlsock} {mode : BitVec 32}

/-- Waiting happens in blocking mode. -/
def IsBlocking : NlEvent → Prop
  | .waits mode => mode &&& oNonblock = 0
  | _ => True

/-- The mode is blocking during a wait, and it is `mode` when the function returns. -/
def KeepsMode (mode : BitVec 32) (p : Comm ℤ) (s : Option Nlsock) : Prop :=
  Ensures p (fun _ s' => s'.map Nlsock.mode = some mode) s ∧ Logs IsBlocking p s

/-- A request is sent. -/
structure Sends (k : NlKernel) (args : NlArgs) (sk : Nlsock) : Prop where
  sock : 0 ≤ sk.sock
  len : args.len % 2 ^ 64 ≤ sizeofTraceMsg
  calloc : k.calloc
  sendto : k.sendto

/-- The wait for the reply ends. -/
def Answers (k : NlKernel) (args : NlArgs) : Prop :=
  ∃ ret calls, nlReply k args = .returns ret calls

/-- An acknowledgement is always asked for. -/
theorem nlmsghdrFlags_nlmFAck : (nlmsghdrFlags args).setWidth 32 &&& nlmFAck ≠ 0 := by
  -- It is the third bit.
  intro h
  have hbit := congrArg (fun x : BitVec 32 => x[2]) h
  simp [nlmsghdrFlags, nlmFAck] at hbit

theorem keepsMode_bind {α : Type} {p : Comm α} {q : α → Comm ℤ} {s : Option Nlsock} :
    KeepsMode mode (p >>= q) s ↔
      Logs IsBlocking p s ∧ Ensures p (fun a s' => KeepsMode mode (q a) s') s :=
  ensures_and_logs_bind

theorem keepsMode_pure {ret : ℤ} : KeepsMode mode (pure ret) (some sk) ↔ sk.mode = mode := by
  simp [KeepsMode]

theorem keepsMode_get {q : Option Nlsock → Comm ℤ} {s : Option Nlsock} :
    KeepsMode mode (get >>= q) s ↔ KeepsMode mode (q s) s := by
  simp [keepsMode_bind]

theorem keepsMode_modify {f : Option Nlsock → Option Nlsock} {q : PUnit → Comm ℤ}
    {s : Option Nlsock} :
    KeepsMode mode (modify f >>= q) s ↔ KeepsMode mode (q ⟨⟩) (f s) := by
  simp [keepsMode_bind]

theorem keepsMode_emit {e : NlEvent} {q : PUnit → Comm ℤ} {s : Option Nlsock} :
    KeepsMode mode (emit e >>= q) s ↔ IsBlocking e ∧ KeepsMode mode (q ⟨⟩) s := by
  simp [keepsMode_bind]

/-- The mode matters while the socket waits, and the rest if there is a reply. -/
theorem keepsMode_nlWait {reply : NlOutcome} {q : ℤ → Comm ℤ} :
    KeepsMode mode (nlWait reply >>= q) (some sk) ↔ sk.mode &&& oNonblock = 0 ∧
      ∀ ret calls, reply = .returns ret calls → KeepsMode mode (q ret) (some sk) := by
  rw [keepsMode_bind]
  cases reply with
  | returns ret calls => simp [nlWait, IsBlocking]
  | overrun => simp [nlWait, IsBlocking]
  | waiting v => simp [nlWait, IsBlocking]

/-- When a request is sent, the flags of the request are made those of the socket. -/
theorem keepsMode_of_sends (h : Sends k args sk) :
    KeepsMode mode (nlsockKernelComm k args) (some sk) ↔
      overwrite k.settable args.flags sk.mode &&& oNonblock = 0 ∧ (Answers k args →
        overwrite k.settable (args.flags ||| oNonblock)
          (overwrite k.settable args.flags sk.mode) = mode) := by
  have hlen : ¬(sizeofTraceMsg : ℤ) < args.len % 2 ^ 64 := Int.not_lt.2 h.len
  rw [nlsockKernelComm, keepsMode_get]
  simp only [Int.not_lt.2 h.sock, hlen, h.calloc, h.sendto, Bool.not_true, Bool.false_eq_true,
    if_false, if_pos nlmsghdrFlags_nlmFAck]
  -- The mode is set a first time before the wait, and a second time after it.
  rw [keepsMode_modify, keepsMode_emit, fcntlSetfl, keepsMode_modify, Option.map_some,
    Option.map_some, keepsMode_nlWait]
  simp only [fcntlSetfl, keepsMode_modify, Option.map_some, keepsMode_pure]
  refine (and_iff_right trivial).trans (and_congr_right fun _ => ?_)
  constructor
  · rintro hmode ⟨ret, calls, hreply⟩
    exact hmode ret calls hreply
  · intro hmode ret calls hreply
    exact hmode ⟨ret, calls, hreply⟩

/-- Otherwise, nothing happens to the mode. -/
theorem keepsMode_of_not_sends (h : ¬Sends k args sk) :
    KeepsMode sk.mode (nlsockKernelComm k args) (some sk) := by
  rw [nlsockKernelComm, keepsMode_get]
  by_cases hsock : sk.sock < 0
  · simp only [hsock, if_true]
    exact keepsMode_pure.2 rfl
  by_cases hlen : (sizeofTraceMsg : ℤ) < args.len % 2 ^ 64
  · simp only [hsock, hlen, if_true, if_false]
    exact keepsMode_pure.2 rfl
  cases hcalloc : k.calloc with
  | false =>
    simp only [hsock, hlen, Bool.not_false, if_true, if_false]
    exact keepsMode_pure.2 rfl
  | true =>
    cases hsendto : k.sendto with
    | false =>
      simp only [hsock, hlen, Bool.not_true, Bool.false_eq_true, Bool.not_false, if_true, if_false]
      rw [keepsMode_modify, keepsMode_emit]
      exact ⟨trivial, keepsMode_pure.2 rfl⟩
    | true => exact absurd ⟨Int.not_lt.1 hsock, Int.not_lt.1 hlen, hcalloc, hsendto⟩ h

/-- The exact condition under which the mode is kept. -/
theorem keepsMode_iff : KeepsMode sk.mode (nlsockKernelComm k args) (some sk) ↔
    (Sends k args sk → args.flags &&& oNonblock = 0 ∧ (Answers k args →
      sk.mode &&& k.settable = (args.flags ||| oNonblock) &&& k.settable)) := by
  by_cases h : Sends k args sk
  · rw [imp_iff_right h, keepsMode_of_sends h, overwrite_and k.settable_oNonblock,
      overwrite_overwrite, overwrite_eq_self_iff]
  · exact iff_of_true (keepsMode_of_not_sends h) fun hsends => absurd hsends h

/-- A kernel in which everything succeeds, with the flags that Linux allows to set. -/
def linux (recvmsg : List Recv) : NlKernel where
  order := .little
  settable := 0x46c00
  pid := 1
  calloc := true
  sendto := true
  recvmsg := recvmsg
  stack := List.replicate traceRecvBufLen 0
  settable_oNonblock := by decide
  settable_oAppend := by decide

/-- With `NLM_F_APPEND`, the socket is not blocking. -/
theorem not_keepsMode : ¬∀ (k : NlKernel) (args : NlArgs) (sk : Nlsock),
    KeepsMode sk.mode (nlsockKernelComm k args) (some sk) := by
  intro h
  have hsends : Sends (linux [.failure eagain]) ⟨1024, none, 0, 0x800, none⟩ ⟨3, 0, 0x802⟩ :=
    ⟨by decide, by decide, rfl, rfl⟩
  exact absurd ((keepsMode_of_sends hsends).1 (h _ _ _)).1 (by decide)

/-- With `NLM_F_CREATE`, the socket is blocking, but it is left with `O_APPEND`. -/
example : overwrite 0x46c00 (0x400 ||| oNonblock) (overwrite 0x46c00 0x400 0x802) = 0xc02 := by
  decide

end Mksh
