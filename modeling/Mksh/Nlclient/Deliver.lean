import Mksh.Nlclient.Basic

/-!
# What the filter is called on

A datagram from the kernel is a list of messages, each padded to the alignment (`Message`). The
loop over the messages passes each of them to the filter (`nlMessages_flatten`), and so does a
run over several datagrams, whatever comes in between (`Delivers.nlParseInfo_eq`), up to the
message that ends it, or until there are no more (`nlParseInfo_delivers`).
-/

namespace Mksh

open Bytes

/-- A message, with its padding. -/
structure Message (o : Order) where
  bytes : List UInt8
  le_len : sizeofNlmsghdr ≤ nlmsgLen o bytes
  length_eq : bytes.length = nlmsgAlign (nlmsgLen o bytes)

variable {o : Order} {ack : Bool} {filter : DumpFilter} {v v' : NlVars} {ms : List (Message o)}
  {es es' : List Recv} {ds : List (List (Message o))} {status : ℤ}

namespace Message

variable (m : Message o)

/-- The type of the message. -/
def type : ℕ := nlmsgType o m.bytes

/-- The length of the payload. -/
def size : ℕ := nlmsgLen o m.bytes - sizeofNlmsghdr

/-- The data of the message, without what it is padded with. -/
def payload : List UInt8 := (nlmsgData m.bytes).take m.size

/-- The call of the filter for the message. -/
def call : FilterCall := ⟨m.payload, m.size⟩

/-- The message is one for the filter. -/
def IsData : Prop := m.type ≠ nlmsgDone ∧ m.type ≠ nlmsgError

theorem len_le : nlmsgLen o m.bytes ≤ m.bytes.length := by
  rw [m.length_eq, nlmsgAlign]
  omega

theorem sizeof_le : 16 ≤ m.bytes.length := Nat.le_trans m.le_len m.len_le

/-! What follows the message in the buffer does not matter. -/

theorem nlmsgLen_append (t : List UInt8) : nlmsgLen o (m.bytes ++ t) = nlmsgLen o m.bytes := by
  have hle := m.sizeof_le
  exact load_append (by omega) t

theorem nlmsgType_append (t : List UInt8) : nlmsgType o (m.bytes ++ t) = m.type := by
  have hle := m.sizeof_le
  exact load_append (by omega) t

theorem drop_append (t : List UInt8) :
    (m.bytes ++ t).drop (nlmsgAlign (nlmsgLen o (m.bytes ++ t))) = t := by
  rw [m.nlmsgLen_append, ← m.length_eq, List.drop_left]

theorem payload_append (t : List UInt8) :
    (nlmsgData (m.bytes ++ t)).take m.size = m.payload := by
  have hle := m.len_le
  have hdrop : sizeofNlmsghdr ≤ m.bytes.length := m.sizeof_le
  rw [nlmsgData, List.drop_append_of_le_length hdrop, List.take_append_of_le_length, payload,
    nlmsgData]
  rw [List.length_drop, size]
  omega

/-- A message of the datagram is found whole. -/
theorem nlmsgOk_append (t : List UInt8) (h : m.bytes.length ≤ status) :
    NlmsgOk o (m.bytes ++ t) status := by
  have hle := m.len_le
  have hsize := m.sizeof_le
  have hlen := m.le_len
  rw [NlmsgOk, m.nlmsgLen_append, sizeofNlmsghdr] at *
  omega

end Message

/-! ## A datagram -/

/-- The filter is called on a message. -/
theorem nlMessages_data (m : Message o) (hm : m.IsData) (t : List UInt8)
    (h : m.bytes.length ≤ status) :
    nlMessages o ack (some filter) v (m.bytes ++ t) status =
      nlMessages o ack (some filter)
        { v with ret := filter v.calls m.call, calls := v.calls ++ [m.call] } t
        (status - m.bytes.length) := by
  have hfilter : nlFilter o (some filter) v (m.bytes ++ t) =
      { v with ret := filter v.calls m.call, calls := v.calls ++ [m.call] } := by
    rw [nlFilter, m.nlmsgLen_append, ← Message.size, m.payload_append]
    rfl
  rw [nlMessages, dif_pos (m.nlmsgOk_append t h), m.nlmsgType_append, if_neg hm.1, if_neg hm.2,
    hfilter, m.drop_append, m.nlmsgLen_append, ← m.length_eq]

/-- The variables after the messages. -/
def afterMessages (filter : DumpFilter) (v : NlVars) : List (Message o) → NlVars
  | [] => v
  | m :: ms => afterMessages filter
      { v with ret := filter v.calls m.call, calls := v.calls ++ [m.call] } ms

/-- Each message of a batch makes a call. -/
theorem afterMessages_calls (v : NlVars) (ms : List (Message o)) :
    (afterMessages filter v ms).calls = v.calls ++ ms.map Message.call := by
  induction ms generalizing v with
  | nil => exact (List.append_nil _).symm
  | cons m ms ih => rw [afterMessages, ih, List.map_cons, List.append_assoc, List.singleton_append]

/-- The bytes of messages, one after the other. -/
def bytesOf (ms : List (Message o)) : List UInt8 := ms.flatMap Message.bytes

/-- The filter is called on each of the messages. -/
theorem nlMessages_flatten (hms : ∀ m ∈ ms, m.IsData) (t : List UInt8)
    (h : (bytesOf ms).length ≤ status) :
    nlMessages o ack (some filter) v (bytesOf ms ++ t) status =
      nlMessages o ack (some filter) (afterMessages filter v ms) t
        (status - (bytesOf ms).length) := by
  induction ms generalizing v status with
  | nil => simp [bytesOf, afterMessages]
  | cons m ms ih =>
    obtain ⟨hm, hms⟩ := List.forall_mem_cons.1 hms
    have hcons : bytesOf (m :: ms) = m.bytes ++ bytesOf ms := List.flatMap_cons
    rw [hcons, List.length_append] at h
    have hstatus : status - ↑m.bytes.length - ↑(bytesOf ms).length =
        status - ↑(bytesOf (m :: ms)).length := by
      rw [hcons, List.length_append]
      omega
    rw [hcons, List.append_assoc, nlMessages_data m hm _ (by omega), ih hms (by omega), ← hcons,
      hstatus, afterMessages]

/-- The loop ends after all messages. -/
theorem nlMessages_zero (t : List UInt8) : nlMessages o ack (some filter) v t 0 = (v, .done 0) := by
  rw [nlMessages, dif_neg]
  exact fun h => absurd h.1 (by decide)

/-- A message of type `NLMSG_DONE` ends the loop over the datagram. -/
theorem nlMessages_done (m : Message o) (hm : m.type = nlmsgDone) (t : List UInt8)
    (h : m.bytes.length ≤ status) : nlMessages o ack (some filter) v (m.bytes ++ t) status =
      ({ v with ret := nlmsgLen o m.bytes - sizeofNlmsghdr },
        if ack then .retry else .returns (nlmsgLen o m.bytes - sizeofNlmsghdr)) := by
  rw [nlMessages, dif_pos (m.nlmsgOk_append t h), m.nlmsgType_append, if_pos hm,
    m.nlmsgLen_append]

/-- A datagram as the kernel sends it. -/
structure Datagram.IsKernel (d : Datagram) : Prop where
  pid_eq : d.pid = 0
  namelen_eq : d.namelen = sizeofSockaddrNl
  trunc_eq : d.trunc = false

theorem bytesOf_ne_nil (hne : ms ≠ []) : bytesOf ms ≠ [] := by
  obtain ⟨m, ms, rfl⟩ := List.exists_cons_of_ne_nil hne
  have hcons : bytesOf (m :: ms) = m.bytes ++ bytesOf ms := List.flatMap_cons
  have hsize := m.sizeof_le
  rw [hcons]
  intro hnil
  rw [(List.append_eq_nil_iff.1 hnil).1] at hsize
  exact absurd hsize (by decide)

/-- A datagram of messages. -/
theorem nlReceive_messages (ack : Bool) (filter : DumpFilter) (v : NlVars) {d : Datagram}
    (hd : d.IsKernel) (hbytes : d.bytes = bytesOf ms) (hne : ms ≠ []) (hms : ∀ m ∈ ms, m.IsData) :
    nlReceive o ack (some filter) v (.datagram d) =
      .waiting (afterMessages filter (filled v d) ms) := by
  -- What is in the buffer from before, i.e., `t`, is not looked at.
  have hloop (t : List UInt8) :
      nlMessages o ack (some filter) (filled v d) (d.bytes ++ t) d.bytes.length =
        (afterMessages filter (filled v d) ms, .done 0) := by
    have hzero : (↑(bytesOf ms).length : ℤ) - ↑(bytesOf ms).length = 0 := Int.sub_self _
    rw [hbytes, nlMessages_flatten hms t (Int.le_refl _), hzero, nlMessages_zero]
  rw [nlReceive_datagram hd.pid_eq hd.namelen_eq (hbytes ▸ bytesOf_ne_nil hne), hloop]
  dsimp only
  rw [hd.trunc_eq]
  rfl

/-- A datagram of messages, up to one that tells that there are no more. -/
theorem nlReceive_done (ack : Bool) (filter : DumpFilter) (v : NlVars) {d : Datagram}
    {m : Message o} {t : List UInt8} (hd : d.IsKernel)
    (hbytes : d.bytes = bytesOf ms ++ (m.bytes ++ t)) (hms : ∀ m ∈ ms, m.IsData)
    (hm : m.type = nlmsgDone) :
    ∃ v', v'.calls = v.calls ++ ms.map Message.call ∧
      nlReceive o ack (some filter) v (.datagram d) =
        if ack then .waiting v' else .returns v'.ret v'.calls := by
  have hne : d.bytes ≠ [] := by
    have hsize := m.sizeof_le
    intro hnil
    have hlen := congrArg List.length (hbytes.symm.trans hnil)
    simp only [List.length_append, List.length_nil] at hlen
    omega
  have hle : ↑m.bytes.length ≤ (↑d.bytes.length : ℤ) - ↑(bytesOf ms).length := by
    rw [hbytes]
    simp only [List.length_append]
    omega
  -- What is left in the buffer from before does not matter: the loop ends at this message.
  have hloop (u : List UInt8) :
      nlMessages o ack (some filter) (filled v d) (d.bytes ++ u) d.bytes.length =
        ({ afterMessages filter (filled v d) ms with
          ret := nlmsgLen o m.bytes - sizeofNlmsghdr },
        if ack then .retry else .returns (nlmsgLen o m.bytes - sizeofNlmsghdr)) := by
    have hsplit : d.bytes ++ u = bytesOf ms ++ (m.bytes ++ (t ++ u)) := by
      rw [hbytes, List.append_assoc, List.append_assoc]
    rw [hsplit, nlMessages_flatten hms _ (by omega), nlMessages_done m hm _ hle]
  refine ⟨{ afterMessages filter (filled v d) ms with
    ret := nlmsgLen o m.bytes - sizeofNlmsghdr }, afterMessages_calls _ ms, ?_⟩
  rw [nlReceive_datagram hd.pid_eq hd.namelen_eq hne, hloop]
  cases ack <;> rfl

/-! ## A run -/

/-- What changes nothing: an interrupted receive, and a datagram from another sender. -/
inductive IsInterrupt : Recv → Prop
  | signal : IsInterrupt (.failure eintr)
  | other (d : Datagram) : d.pid ≠ 0 → IsInterrupt (.datagram d)

/-- The messages that the kernel sends, datagram by datagram. -/
inductive Delivers : List Recv → List (List (Message o)) → Prop
  | nil : Delivers [] []
  | interrupt (e : Recv) (es : List Recv) (ds : List (List (Message o))) :
      IsInterrupt e → Delivers es ds → Delivers (e :: es) ds
  | datagram (d : Datagram) (ms : List (Message o)) (es : List Recv)
      (ds : List (List (Message o))) : d.IsKernel → d.bytes = bytesOf ms → ms ≠ [] →
      (∀ m ∈ ms, m.IsData) → Delivers es ds → Delivers (.datagram d :: es) (ms :: ds)

/-- There is nothing more to receive. -/
inductive IsAgain : Recv → Prop
  | again : IsAgain (.failure eagain)
  | wouldblock : IsAgain (.failure ewouldblock)

/-- What ends the messages, after some in the same datagram: one that tells so, after which nothing
    is read, or that there is nothing more to receive. -/
inductive Ends (ack : Bool) : List Recv → List (Message o) → Prop
  | done (d : Datagram) (ms : List (Message o)) (m : Message o) (t : List UInt8) (es : List Recv) :
      ack = false → d.IsKernel → d.bytes = bytesOf ms ++ (m.bytes ++ t) → (∀ m ∈ ms, m.IsData) →
      m.type = nlmsgDone → Ends ack (.datagram d :: es) ms
  | again (e : Recv) (es : List Recv) : IsAgain e → Ends ack (e :: es) []
  /-- With `ack`, the function goes on until there is nothing more to receive. -/
  | acknowledged (d : Datagram) (ms : List (Message o)) (m : Message o) (t : List UInt8)
      (es : List Recv) (e : Recv) (es' : List Recv) : ack = true → d.IsKernel →
      d.bytes = bytesOf ms ++ (m.bytes ++ t) → (∀ m ∈ ms, m.IsData) → m.type = nlmsgDone →
      (∀ e ∈ es, IsInterrupt e) → IsAgain e → Ends ack (.datagram d :: (es ++ e :: es')) ms

/-- An interrupt makes no call, and the next datagram is received. -/
theorem nlReceive_interrupt {e : Recv} (he : IsInterrupt e) :
    ∃ v', v'.calls = v.calls ∧ nlReceive o ack (some filter) v e = .waiting v' := by
  cases he with
  | signal => exact ⟨v, rfl, rfl⟩
  | other d hd => exact ⟨filled v d, rfl, if_pos hd⟩

/-- Where nothing is to be received, the function returns. -/
theorem nlReceive_again {e : Recv} (he : IsAgain e) :
    nlReceive o ack (some filter) v e = .returns v.ret v.calls := by
  cases he <;> rfl

/-- While the messages come in, the filter is called on them, in order. -/
theorem Delivers.nlParseInfo_eq (h : Delivers es ds) (ack : Bool) (filter : DumpFilter)
    (v : NlVars) : ∃ v',
    nlParseInfo o ack (some filter) v es = .waiting v' ∧
      v'.calls = v.calls ++ ds.flatten.map Message.call := by
  induction h generalizing v with
  | nil => exact ⟨v, rfl, (List.append_nil _).symm⟩
  | interrupt e es ds he _ ih =>
    obtain ⟨v₁, hcalls, hturn⟩ := nlReceive_interrupt he
    obtain ⟨v', hrun, hcalls'⟩ := ih v₁
    exact ⟨v', by rw [nlParseInfo_cons_of_waiting hturn, hrun], by rw [hcalls', hcalls]⟩
  | datagram d ms es ds hd hbytes hne hms _ ih =>
    have hturn := nlReceive_messages ack filter v hd hbytes hne hms
    obtain ⟨v', hrun, hcalls'⟩ := ih (afterMessages filter (filled v d) ms)
    refine ⟨v', by rw [nlParseInfo_cons_of_waiting hturn, hrun], ?_⟩
    rw [hcalls', afterMessages_calls, List.flatten_cons, List.map_append, List.append_assoc]
    rfl

/-- Interrupts deliver nothing. -/
theorem delivers_interrupts (hes : ∀ e ∈ es, IsInterrupt e) :
    Delivers es ([] : List (List (Message o))) := by
  induction es with
  | nil => exact .nil
  | cons e es ih =>
    obtain ⟨he, hes⟩ := List.forall_mem_cons.1 hes
    exact .interrupt e es [] he (ih hes)

/-- The end of the messages ends the function. -/
theorem Ends.nlParseInfo_eq (h : Ends ack es ms) : ∃ ret,
    nlParseInfo o ack (some filter) v es = .returns ret (v.calls ++ ms.map Message.call) := by
  cases h with
  | done d ms m t es hack hd hbytes hms hm =>
    obtain ⟨v', hcalls, hturn⟩ := nlReceive_done ack filter v hd hbytes hms hm
    rw [hack, if_neg Bool.false_ne_true, hcalls] at hturn
    exact ⟨v'.ret, by rw [hack, nlParseInfo, hturn]⟩
  | again e es he =>
    exact ⟨v.ret, by rw [nlParseInfo, nlReceive_again he, List.map_nil, List.append_nil]⟩
  | acknowledged d ms m t es e es' hack hd hbytes hms hm hes he =>
    obtain ⟨v', hcalls, hturn⟩ := nlReceive_done ack filter v hd hbytes hms hm
    rw [hack, if_pos rfl] at hturn
    -- Until there is nothing more to receive, nothing changes.
    obtain ⟨v₁, hrun, hcalls₁⟩ := (delivers_interrupts (o := o) hes).nlParseInfo_eq true filter v'
    refine ⟨v₁.ret, ?_⟩
    rw [hack, nlParseInfo_cons_of_waiting hturn, nlParseInfo_append hrun, nlParseInfo,
      nlReceive_again he, hcalls₁, List.flatten_nil, List.map_nil, List.append_nil, hcalls]

/-- The replies are delivered completely, and in order. -/
theorem nlParseInfo_delivers (hes : Delivers es ds) (hend : Ends ack es' ms) : ∃ ret,
    nlParseInfo o ack (some filter) v (es ++ es') =
      .returns ret (v.calls ++ (ds.flatten ++ ms).map Message.call) := by
  obtain ⟨v', hrun, hcalls⟩ := hes.nlParseInfo_eq ack filter v
  obtain ⟨ret, hret⟩ := hend.nlParseInfo_eq
  refine ⟨ret, ?_⟩
  rw [nlParseInfo_append hrun, hret, hcalls, List.map_append, List.append_assoc]

/-- A message of type `0x401`, with a payload of three bytes, and its padding. -/
def tupleMessage : Message .little :=
  ⟨[19, 0, 0, 0, 1, 4, 2, 0, 0, 0, 0, 0, 0, 0, 0, 0, 7, 8, 9, 0], by decide, by decide⟩

/-- A message that ends a dump. -/
def doneMessage : Message .little :=
  ⟨[16, 0, 0, 0, 3, 0, 2, 0, 0, 0, 0, 0, 0, 0, 0, 0], by decide, by decide⟩

/-- Two messages, with an interrupted receive before them. -/
theorem nlParseInfo_delivers_two : ∃ ret,
    nlParseInfo .little false (some fun _ _ => 0) { recvBuff := List.replicate traceRecvBufLen 0 }
        ([.failure eintr, .datagram ⟨0, 12, false, bytesOf [tupleMessage], by decide⟩] ++
          [.datagram ⟨0, 12, false, bytesOf [tupleMessage] ++ (doneMessage.bytes ++ []),
            by decide⟩]) =
      .returns ret ([] ++ ([[tupleMessage]].flatten ++ [tupleMessage]).map Message.call) :=
  have hdata : ∀ m ∈ [tupleMessage], m.IsData := by
    rw [List.forall_mem_singleton]
    exact ⟨by decide, by decide⟩
  nlParseInfo_delivers
    (.interrupt _ _ _ .signal (.datagram _ _ _ _ ⟨rfl, rfl, rfl⟩ rfl (List.cons_ne_nil _ _) hdata
      .nil))
    (.done _ _ doneMessage [] [] rfl ⟨rfl, rfl, rfl⟩ rfl hdata (by decide))

end Mksh
