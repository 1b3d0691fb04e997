import Mathlib.Data.Int.Notation
import Mksh.Lib.Bytes

/-!
# The netlink client

The function that receives the replies of the kernel (`nlParseInfo`). It fills a buffer again and
again, with what the kernel sends, and passes the messages in it to a filter, until one of
them, or of the receives, ends it. What `recvmsg` does is given as a list of its outcomes: the
function is waiting if there are no more.
-/

namespace Mksh

open Bytes

/-! ## Messages -/

/-- The size of the buffer that datagrams are received in. -/
def traceRecvBufLen : ℕ := 4096

/-- The size of the header of a message. -/
def sizeofNlmsghdr : ℕ := 16

/-- The size of an error, which has the header of the message that it is about. -/
def sizeofNlmsgerr : ℕ := 20

/-- The size of an address. -/
def sizeofSockaddrNl : ℕ := 12

/-- The type of an error, or of an acknowledgement. -/
def nlmsgError : ℕ := 2

/-- The type of the last message of a dump. -/
def nlmsgDone : ℕ := 3

/-- The flag of the messages of a dump. -/
def nlmFMulti : ℕ := 0x2

/-- A call was interrupted. -/
def eintr : ℕ := 4

/-- Nothing is there, and the call must not block. -/
def eagain : ℕ := 11

/-- The same as `eagain`. -/
def ewouldblock : ℕ := 11

/-- Lengths are rounded up to multiples of 4. -/
def nlmsgAlign (len : ℕ) : ℕ := (len + 3) / 4 * 4

/-- The length of a message with so much data. -/
def nlmsgLength (len : ℕ) : ℕ := len + nlmsgAlign sizeofNlmsghdr

variable (o : Order)

/-! The fields of the header at `h`, in the buffer from there on. -/

/-- `nlmsg_len`, the length that the header tells. -/
def nlmsgLen (h : List UInt8) : ℕ := load o 4 0 h

/-- `nlmsg_type`. -/
def nlmsgType (h : List UInt8) : ℕ := load o 2 4 h

/-- `nlmsg_flags`. -/
def nlmsgFlags (h : List UInt8) : ℕ := load o 2 6 h

/-- What follows the header. -/
def nlmsgData (h : List UInt8) : List UInt8 := h.drop sizeofNlmsghdr

/-- There is a whole message at `h`, in the remaining `status` bytes. -/
def NlmsgOk (h : List UInt8) (status : ℤ) : Prop :=
  sizeofNlmsghdr ≤ status ∧ sizeofNlmsghdr ≤ nlmsgLen o h ∧ nlmsgLen o h ≤ status

instance (h : List UInt8) (status : ℤ) : Decidable (NlmsgOk o h status) :=
  inferInstanceAs (Decidable (_ ∧ _ ∧ _))

/-! ## Receiving -/

/-- A call of the filter: the data it is passed, and their length. -/
structure FilterCall where
  data : List UInt8
  len : ℕ
  deriving DecidableEq

/-- What a filter returns from a call, after other ones. -/
abbrev DumpFilter := List FilterCall → FilterCall → ℤ

/-- What is received at once: `bytes` are copied to the buffer. -/
structure Datagram where
  pid : ℕ
  namelen : ℕ
  trunc : Bool
  bytes : List UInt8
  size_le : bytes.length ≤ traceRecvBufLen

/-- What `recvmsg` does. -/
inductive Recv
  | failure (errno : ℕ)
  | datagram (d : Datagram)

/-- The variables of `nlParseInfo`, with the calls so far. -/
structure NlVars where
  recvBuff : List UInt8
  ret : ℤ := 0
  calls : List FilterCall := []

/-- What has become of a call of `nlParseInfo`, which may also read past its buffer. -/
inductive NlOutcome
  | returns (ret : ℤ) (calls : List FilterCall)
  | overrun
  | waiting (v : NlVars)

/-- How the loop over the messages ends. -/
inductive NlTurn
  | returns (ret : ℤ)
  | overrun
  | retry
  | done (status : ℤ)

variable (ack : Bool) (filter : Option DumpFilter)

/-- The call of the filter on the message at `h`. -/
def nlFilter (v : NlVars) (h : List UInt8) : NlVars :=
  match filter with
  | none => v
  | some filter =>
    let len := nlmsgLen o h - sizeofNlmsghdr
    let call := ⟨(nlmsgData h).take len, len⟩
    { v with ret := filter v.calls call, calls := v.calls ++ [call] }

/-- The loop over the messages, from `h` on. -/
def nlMessages (v : NlVars) (h : List UInt8) (status : ℤ) : NlVars × NlTurn :=
  if _hok : NlmsgOk o h status then
    -- With an acknowledgement asked for, one more datagram is received.
    if nlmsgType o h = nlmsgDone then
      let ret : ℤ := nlmsgLen o h - sizeofNlmsghdr
      ({ v with ret }, if ack then .retry else .returns ret)
    else if nlmsgType o h = nlmsgError then
      -- The error is the first field after the header.
      if h.length < nlmsgLength 4 then (v, .overrun)
      else if load o 4 0 (nlmsgData h) = 0 then
        (v, .returns (if nlmsgFlags o h &&& nlmFMulti = 0 then 0 else v.ret))
      -- The length is checked only now, that the error has been read.
      else if nlmsgLen o h < nlmsgLength sizeofNlmsgerr then (v, .returns (-1))
      else (v, .returns (-1))
    else
      nlMessages (nlFilter o filter v h) (h.drop (nlmsgAlign (nlmsgLen o h)))
        (status - nlmsgAlign (nlmsgLen o h))
  else (v, .done status)
termination_by status.toNat
decreasing_by
  obtain ⟨hstatus, hlen, -⟩ := _hok
  rw [sizeofNlmsghdr] at hstatus hlen
  have hle : nlmsgLen o h ≤ nlmsgAlign (nlmsgLen o h) := by
    rw [nlmsgAlign]
    omega
  omega

/-- A turn of the outer loop. -/
def nlReceive (v : NlVars) : Recv → NlOutcome
  | .failure errno =>
    if errno = eintr then .waiting v
    else if errno = ewouldblock ∨ errno = eagain then .returns v.ret v.calls
    -- Any other error is received after as well, however long it persists.
    else .waiting v
  | .datagram d =>
    let v := { v with recvBuff := d.bytes ++ v.recvBuff.drop d.bytes.length }
    -- What does not come from the kernel is skipped, after it has overwritten the buffer.
    if d.pid ≠ 0 then .waiting v
    else if d.bytes.length = 0 then .returns (-1) v.calls
    else if d.namelen ≠ sizeofSockaddrNl then .returns (-1) v.calls
    else match nlMessages o ack filter v v.recvBuff d.bytes.length with
      | (v, .returns ret) => .returns ret v.calls
      | (_, .overrun) => .overrun
      | (v, .retry) => .waiting v
      | (v, .done status) =>
        if d.trunc then .waiting v
        else if status ≠ 0 then .returns (-1) v.calls
        else .waiting v

/-- Receiving messages from the netlink interface, and passing them to `filter`. -/
def nlParseInfo (v : NlVars) : List Recv → NlOutcome
  | [] => .waiting v
  | e :: es =>
    match nlReceive o ack filter v e with
    | .waiting v => nlParseInfo v es
    | outcome => outcome

/-! ## Runs -/

variable {o ack filter} {v v' : NlVars} {e : Recv} {es es' : List Recv} {d : Datagram}

/-- The variables after a datagram has been received. -/
def filled (v : NlVars) (d : Datagram) : NlVars :=
  { v with recvBuff := d.bytes ++ v.recvBuff.drop d.bytes.length }

/-- A datagram from the kernel. -/
theorem nlReceive_datagram (hpid : d.pid = 0) (hnamelen : d.namelen = sizeofSockaddrNl)
    (hne : d.bytes ≠ []) :
    nlReceive o ack filter v (.datagram d) =
      match nlMessages o ack filter (filled v d) (d.bytes ++ v.recvBuff.drop d.bytes.length)
          d.bytes.length with
      | (v, .returns ret) => .returns ret v.calls
      | (_, .overrun) => .overrun
      | (v, .retry) => .waiting v
      | (v, .done status) =>
        if d.trunc then .waiting v
        else if status ≠ 0 then .returns (-1) v.calls
        else .waiting v := by
  have hlen : d.bytes.length ≠ 0 := fun h => hne (List.length_eq_zero_iff.1 h)
  rw [nlReceive]
  simp only [hpid, hnamelen, hlen, ne_eq, not_true_eq_false, if_false]
  rfl

theorem nlParseInfo_cons_of_waiting (h : nlReceive o ack filter v e = .waiting v') :
    nlParseInfo o ack filter v (e :: es) = nlParseInfo o ack filter v' es := by
  rw [nlParseInfo, h]

/-- A run goes on where its first part is waiting. -/
theorem nlParseInfo_append (h : nlParseInfo o ack filter v es = .waiting v') :
    nlParseInfo o ack filter v (es ++ es') = nlParseInfo o ack filter v' es' := by
  induction es generalizing v with
  | nil =>
    cases h
    rfl
  | cons e es ih =>
    rw [List.cons_append, nlParseInfo]
    rw [nlParseInfo] at h
    cases hturn : nlReceive o ack filter v e with
    | waiting v₁ =>
      rw [hturn] at h
      exact ih h
    | returns | overrun =>
      rw [hturn] at h
      cases h

/-- A run has been waiting before. -/
theorem nlParseInfo_waiting_of_append (h : nlParseInfo o ack filter v (es ++ es') = .waiting v') :
    ∃ v₁, nlParseInfo o ack filter v es = .waiting v₁ := by
  induction es generalizing v with
  | nil => exact ⟨v, rfl⟩
  | cons e es ih =>
    rw [List.cons_append, nlParseInfo] at h
    rw [nlParseInfo]
    cases hturn : nlReceive o ack filter v e with
    | waiting v₁ =>
      rw [hturn] at h
      exact ih h
    | returns | overrun =>
      rw [hturn] at h
      cases h

end Mksh
