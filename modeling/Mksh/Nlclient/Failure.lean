import Mathlib.Data.Bool.AllAny
import Mksh.Nlclient.Basic

/-!
# Errors

Two kinds of errors that the function which receives the replies does not treat as such. The
error field of a message is read before it is known to have been received: a truncated error is
taken for an acknowledgement if the buffer has zeros in its place, be they sent or left
from before (`rejects_iff`). And a receive that fails for another reason than a signal, or than that
there is nothing to receive, is tried again, even if it fails again and again
(`nlParseInfo_forever`).
-/

namespace Mksh

open Bytes

variable {o : Order} {ack : Bool} {filter : Option DumpFilter} {d : Datagram} {ret : ℤ}
  {buff h t : List UInt8} {calls : List FilterCall} {v v' : NlVars} {es : List Recv}

/-! ## Truncated errors -/

/-- A negative value is returned at once when the datagram is received, and always the same,
    whatever has been in the buffer. -/
def Rejects (o : Order) (ack : Bool) (filter : Option DumpFilter) (ret : ℤ) (d : Datagram) : Prop :=
  ∃ r < 0, ∀ (buff : List UInt8) (calls : List FilterCall) (es : List Recv),
    buff.length = traceRecvBufLen →
      nlParseInfo o ack filter ⟨buff, ret, calls⟩ (.datagram d :: es) = .returns r calls

/-- The first message is an error, but not long enough. -/
structure IsTruncatedError (o : Order) (d : Datagram) : Prop where
  header : sizeofNlmsghdr ≤ d.bytes.length
  type_eq : nlmsgType o d.bytes = nlmsgError
  len_lt : nlmsgLen o d.bytes < nlmsgLength sizeofNlmsgerr

/-- The bytes of the error field that have been received. -/
def errorBytes (d : Datagram) : List UInt8 := (d.bytes.drop sizeofNlmsghdr).take 4

/-- The first message of the datagram has the flag of a dump. -/
def IsMulti (o : Order) (d : Datagram) : Prop := nlmsgFlags o d.bytes &&& nlmFMulti ≠ 0

/-- When a truncated error is rejected: a byte of the error field that has been received is not
    zero; or there have been an error before, and there is more to come, and either all of the
    field has been received or the error is the one that would be returned for this one. -/
def IsSeen (o : Order) (ret : ℤ) (d : Datagram) : Prop :=
  (∃ b ∈ errorBytes d, b ≠ 0) ∨ IsMulti o d ∧ ret < 0 ∧ ((errorBytes d).length = 4 ∨ ret = -1)

/-- What is returned for an error, with `t` in the buffer after what has been received. -/
def errorRet (o : Order) (ret : ℤ) (d : Datagram) (t : List UInt8) : ℤ :=
  if (errorBytes d ++ t.take (4 - (errorBytes d).length)).all (· = 0) then
    if nlmsgFlags o d.bytes &&& nlmFMulti = 0 then 0 else ret
  else -1

/-- With zeros behind it, a truncated error is taken for an acknowledgement. -/
theorem errorRet_of_forall
    (h : ∀ b ∈ errorBytes d ++ t.take (4 - (errorBytes d).length), b = 0) :
    errorRet o ret d t = if nlmsgFlags o d.bytes &&& nlmFMulti = 0 then 0 else ret :=
  if_pos (List.all_iff_forall_prop.2 h)

/-- With anything else, it gives -1. -/
theorem errorRet_of_not (h : ¬∀ b ∈ errorBytes d ++ t.take (4 - (errorBytes d).length), b = 0) :
    errorRet o ret d t = -1 :=
  if_neg (mt List.all_iff_forall_prop.1 h)

/-- The error field is read past the bytes that were received. -/
theorem load_error (hd : sizeofNlmsghdr ≤ d.bytes.length) (t : List UInt8) :
    load o 4 0 (nlmsgData (d.bytes ++ t)) = 0 ↔
      ∀ b ∈ errorBytes d ++ t.take (4 - (errorBytes d).length), b = 0 := by
  have hlen : 4 - (d.bytes.drop sizeofNlmsghdr).length = 4 - (errorBytes d).length := by
    rw [errorBytes, List.length_take]
    omega
  rw [load_eq_zero, List.drop_zero, nlmsgData, List.drop_append_of_le_length hd, List.take_append,
    hlen, errorBytes]

theorem IsTruncatedError.nlmsgOk_append (hd : IsTruncatedError o d) (t : List UInt8) :
    NlmsgOk o (d.bytes ++ t) d.bytes.length ↔ NlmsgOk o d.bytes d.bytes.length := by
  have hlen : 0 + 4 ≤ d.bytes.length := Nat.le_trans (by decide) hd.header
  rw [NlmsgOk, NlmsgOk, nlmsgLen, nlmsgLen, load_append hlen]

/-- The loop returns on an error. -/
theorem nlMessages_error (hd : IsTruncatedError o d) (hok : NlmsgOk o d.bytes d.bytes.length)
    (ht : nlmsgLength 4 ≤ (d.bytes ++ t).length) :
    nlMessages o ack filter v (d.bytes ++ t) d.bytes.length =
      (v, .returns (errorRet o v.ret d t)) := by
  have htype : nlmsgType o (d.bytes ++ t) = nlmsgError := by
    have hlen : 4 + 2 ≤ d.bytes.length := Nat.le_trans (by decide) hd.header
    rw [nlmsgType, load_append hlen]
    exact hd.type_eq
  have hflags : nlmsgFlags o (d.bytes ++ t) = nlmsgFlags o d.bytes := by
    have hlen : 6 + 2 ≤ d.bytes.length := Nat.le_trans (by decide) hd.header
    exact load_append hlen t
  have hdone : nlmsgError ≠ nlmsgDone := by decide
  rw [nlMessages, dif_pos ((hd.nlmsgOk_append t).2 hok), htype, if_neg hdone, if_pos rfl,
    if_neg (Nat.not_lt.2 ht), hflags]
  by_cases hzero : load o 4 0 (nlmsgData (d.bytes ++ t)) = 0
  · rw [if_pos hzero, errorRet_of_forall ((load_error hd.header t).1 hzero)]
  · rw [if_neg hzero, errorRet_of_not fun h => hzero ((load_error hd.header t).2 h), ite_self]

/-- A datagram without a whole message is not looked at. -/
theorem nlMessages_of_not (hd : IsTruncatedError o d) (hok : ¬NlmsgOk o d.bytes d.bytes.length) :
    nlMessages o ack filter v (d.bytes ++ t) d.bytes.length = (v, .done d.bytes.length) := by
  rw [nlMessages, dif_neg fun h => hok ((hd.nlmsgOk_append t).1 h)]

/-- The same is returned, and negative, whatever has been in the buffer. -/
theorem IsSeen.exists_errorRet (h : IsSeen o ret d) :
    ∃ r < 0, ∀ t : List UInt8, errorRet o ret d t = r := by
  rcases h with ⟨b, hb, hne⟩ | ⟨hmulti, hneg, hfour | hret⟩
  · refine ⟨-1, by decide, fun t => errorRet_of_not fun h => hne ?_⟩
    exact h b (List.mem_append_left _ hb)
  · by_cases hzero : ∀ b ∈ errorBytes d, b = 0
    · refine ⟨ret, hneg, fun t => ?_⟩
      rw [errorRet_of_forall, if_neg hmulti]
      rwa [hfour, List.take_zero, List.append_nil]
    · refine ⟨-1, by decide, fun t => errorRet_of_not ?_⟩
      rwa [hfour, List.take_zero, List.append_nil]
  · refine ⟨-1, by decide, fun t => ?_⟩
    rw [errorRet, if_neg hmulti, hret, ite_self]

/-- Zeros after what has been received make it an acknowledgement. -/
theorem errorRet_zeros (hzero : ∀ b ∈ errorBytes d, b = 0) (n : ℕ) :
    errorRet o ret d (List.replicate n 0) =
      if nlmsgFlags o d.bytes &&& nlmFMulti = 0 then 0 else ret := by
  refine errorRet_of_forall (List.forall_mem_append.2 ⟨hzero, fun b hb => ?_⟩)
  exact List.eq_of_mem_replicate (List.mem_of_mem_take hb)

/-- Other bytes do not, if not all of the field has been received. -/
theorem errorRet_ones (hd : sizeofNlmsghdr ≤ d.bytes.length) (hfour : (errorBytes d).length ≠ 4) :
    errorRet o ret d (List.replicate (traceRecvBufLen - d.bytes.length) 1) = -1 := by
  have hsize := d.size_le
  have hlen : (errorBytes d).length = min 4 (d.bytes.length - sizeofNlmsghdr) := by
    rw [errorBytes, List.length_take, List.length_drop]
  have hmem : 1 ∈ (List.replicate (traceRecvBufLen - d.bytes.length) (1 : UInt8)).take
      (4 - (errorBytes d).length) := by
    rw [List.take_replicate, List.mem_replicate]
    refine ⟨?_, rfl⟩
    rw [sizeofNlmsghdr] at hlen hd
    rw [traceRecvBufLen] at hsize ⊢
    omega
  exact errorRet_of_not fun h => absurd (h 1 (List.mem_append_right _ hmem)) (by decide)

/-- What is returned does not depend on the buffer, and is negative. -/
theorem isSeen_iff (hd : sizeofNlmsghdr ≤ d.bytes.length) : IsSeen o ret d ↔
    ∃ r < 0, ∀ t : List UInt8, t.length = traceRecvBufLen - d.bytes.length →
      errorRet o ret d t = r := by
  constructor
  · intro h
    obtain ⟨r, hneg, hret⟩ := h.exists_errorRet
    exact ⟨r, hneg, fun t _ => hret t⟩
  · rintro ⟨r, hneg, h⟩
    by_cases hzero : ∀ b ∈ errorBytes d, b = 0
    · -- If the error field is zero as far as it is received, it is compared with two buffers:
      -- zeros behind it, and ones.
      have hret := h (List.replicate _ 0) List.length_replicate
      rw [errorRet_zeros hzero] at hret
      have hmulti : IsMulti o d := by
        intro hflags
        rw [if_pos hflags] at hret
        omega
      rw [if_neg hmulti] at hret
      refine .inr ⟨hmulti, hret ▸ hneg, ?_⟩
      by_cases hfour : (errorBytes d).length = 4
      · exact .inl hfour
      · have hret' := h (List.replicate _ 1) List.length_replicate
        rw [errorRet_ones hd hfour] at hret'
        exact .inr (hret.trans hret'.symm)
    · refine .inl ?_
      by_contra hnot
      refine hzero fun b hb => ?_
      by_contra hne
      exact hnot ⟨b, hb, hne⟩

theorem IsTruncatedError.ne_nil (hd : IsTruncatedError o d) : d.bytes ≠ [] := fun h =>
  absurd (h ▸ hd.header) (by decide)

/-- A truncated error in a datagram that has been received completely. -/
theorem rejects_iff_of_ok (hd : IsTruncatedError o d) (hpid : d.pid = 0)
    (hnamelen : d.namelen = sizeofSockaddrNl) (hok : NlmsgOk o d.bytes d.bytes.length) :
    Rejects o ack filter ret d ↔ IsSeen o ret d := by
  have hrun (buff : List UInt8) (calls : List FilterCall) (es : List Recv)
      (hbuff : buff.length = traceRecvBufLen) :
      nlParseInfo o ack filter ⟨buff, ret, calls⟩ (.datagram d :: es) =
        .returns (errorRet o ret d (buff.drop d.bytes.length)) calls := by
    have hlen : nlmsgLength 4 ≤ (d.bytes ++ buff.drop d.bytes.length).length := by
      rw [List.length_append, List.length_drop, hbuff, Nat.add_sub_of_le d.size_le]
      decide
    rw [nlParseInfo, nlReceive_datagram hpid hnamelen hd.ne_nil, nlMessages_error hd hok hlen]
    rfl
  rw [isSeen_iff hd.header]
  constructor
  · rintro ⟨r, hneg, h⟩
    refine ⟨r, hneg, fun t ht => ?_⟩
    -- The buffer is filled so that the bytes in question stand behind the datagram.
    have hbuff : (List.replicate d.bytes.length 0 ++ t).length = traceRecvBufLen := by
      rw [List.length_append, List.length_replicate, ht, Nat.add_sub_of_le d.size_le]
    have hdrop : (List.replicate d.bytes.length 0 ++ t).drop d.bytes.length = t :=
      List.drop_left' List.length_replicate
    have hret := (hrun _ [] [] hbuff).symm.trans (h _ [] [] hbuff)
    rw [hdrop] at hret
    exact (NlOutcome.returns.inj hret).1
  · rintro ⟨r, hneg, h⟩
    refine ⟨r, hneg, fun buff calls es hbuff => ?_⟩
    rw [hrun buff calls es hbuff, h]
    rw [List.length_drop, hbuff]

/-- What is no message is rejected too, unless the datagram has been truncated. -/
theorem rejects_iff_of_not (hd : IsTruncatedError o d) (hpid : d.pid = 0)
    (hnamelen : d.namelen = sizeofSockaddrNl) (hok : ¬NlmsgOk o d.bytes d.bytes.length) :
    Rejects o ack filter ret d ↔ d.trunc = false := by
  have hpos : d.bytes.length ≠ 0 := fun h => hd.ne_nil (List.length_eq_zero_iff.1 h)
  have hrun (buff : List UInt8) (calls : List FilterCall) :
      nlReceive o ack filter ⟨buff, ret, calls⟩ (.datagram d) =
        if d.trunc then .waiting (filled ⟨buff, ret, calls⟩ d) else .returns (-1) calls := by
    rw [nlReceive_datagram hpid hnamelen hd.ne_nil, nlMessages_of_not hd hok]
    simp only [ne_eq, Int.natCast_eq_zero, hpos, not_false_eq_true, if_true]
    rfl
  cases htrunc : d.trunc with
  | false =>
    refine iff_of_true ⟨-1, by decide, fun buff calls es _ => ?_⟩ rfl
    rw [nlParseInfo, hrun, htrunc, if_neg Bool.false_ne_true]
  | true =>
    refine iff_of_false ?_ (by decide)
    rintro ⟨r, -, h⟩
    have hwait := h (List.replicate traceRecvBufLen 0) [] [] List.length_replicate
    rw [nlParseInfo, hrun, htrunc, if_pos rfl] at hwait
    cases hwait

/-- The exact condition under which a truncated error is rejected. -/
theorem rejects_iff (hd : IsTruncatedError o d) : Rejects o ack filter ret d ↔
    d.pid = 0 ∧ (d.namelen ≠ sizeofSockaddrNl ∨
      if NlmsgOk o d.bytes d.bytes.length then IsSeen o ret d else d.trunc = false) := by
  by_cases hpid : d.pid = 0
  · rw [and_iff_right hpid]
    by_cases hnamelen : d.namelen = sizeofSockaddrNl
    · rw [or_iff_right (not_not.2 hnamelen)]
      by_cases hok : NlmsgOk o d.bytes d.bytes.length
      · rw [if_pos hok, rejects_iff_of_ok hd hpid hnamelen hok]
      · rw [if_neg hok, rejects_iff_of_not hd hpid hnamelen hok]
    · have hpos : d.bytes.length ≠ 0 := fun h => hd.ne_nil (List.length_eq_zero_iff.1 h)
      refine iff_of_true ⟨-1, by decide, fun buff calls es _ => ?_⟩ (.inl hnamelen)
      rw [nlParseInfo, nlReceive]
      simp only [hpid, ne_eq, not_true_eq_false, if_false, hpos, hnamelen, not_false_eq_true,
        if_true]
  · refine iff_of_false ?_ fun h => hpid h.1
    rintro ⟨r, -, h⟩
    have hrun := h (List.replicate traceRecvBufLen 0) [] [] List.length_replicate
    rw [nlParseInfo, nlReceive, if_pos hpid] at hrun
    cases hrun

/-- The error field has been received, and is not zero. -/
theorem rejects_iff_error : Rejects .little true none 0
      ⟨0, 12, false, [20, 0, 0, 0, 2, 0, 0, 0, 0, 0, 0, 0, 0, 0, 0, 0, 255, 255, 255, 255],
        by decide⟩ :=
  (rejects_iff ⟨by decide, by decide, by decide⟩).2
    ⟨rfl, .inr (by rw [if_pos (by decide)]; exact .inl (by decide))⟩

/-- A header alone. -/
def headerOnly : Datagram :=
  ⟨0, 12, false, [16, 0, 0, 0, 2, 0, 0, 0, 0, 0, 0, 0, 0, 0, 0, 0], by decide⟩

/-- A truncated error is taken for an acknowledgement. -/
theorem not_rejects : ¬∀ d ret, IsTruncatedError .little d → d.pid = 0 →
    d.namelen = sizeofSockaddrNl → Rejects .little true none ret d := by
  intro h
  have hd : IsTruncatedError .little headerOnly := ⟨by decide, by decide, by decide⟩
  obtain ⟨r, hneg, hall⟩ := h headerOnly 0 hd rfl rfl
  have hrun := hall (List.replicate traceRecvBufLen 0) [] [] List.length_replicate
  have hret : errorRet .little 0 headerOnly
      ((List.replicate traceRecvBufLen 0).drop headerOnly.bytes.length) = 0 := by
    rw [List.drop_replicate]
    exact errorRet_zeros (List.forall_mem_nil _) _
  rw [nlParseInfo, nlReceive_datagram rfl rfl (by decide), nlMessages_error hd (by decide)] at hrun
  · have heq := (NlOutcome.returns.inj hrun).1
    exact absurd (heq.symm.trans hret) (by omega)
  · rw [List.length_append, List.length_drop, List.length_replicate]
    decide

/-! ## Failures -/

/-- A receive fails for another reason than a signal, or than that there is nothing to receive. -/
def IsBroken (e : Recv) : Prop :=
  ∃ errno, e = .failure errno ∧ errno ≠ eintr ∧ errno ≠ eagain ∧ errno ≠ ewouldblock

/-- A persistent failure leaves the function where it is. -/
theorem nlReceive_isBroken {e : Recv} (he : IsBroken e) :
    nlReceive o ack filter v e = .waiting v := by
  obtain ⟨errno, rfl, hintr, hagain, hwouldblock⟩ := he
  rw [nlReceive, if_neg hintr, if_neg (not_or.2 ⟨hwouldblock, hagain⟩)]

/-- Broken receives are tried again. -/
theorem nlParseInfo_isBroken (hes : ∀ e ∈ es, IsBroken e) :
    nlParseInfo o ack filter v es = .waiting v := by
  induction es with
  | nil => rfl
  | cons e es ih =>
    obtain ⟨he, hes⟩ := List.forall_mem_cons.1 hes
    rw [nlParseInfo_cons_of_waiting (nlReceive_isBroken he), ih hes]

/-- The first `n` outcomes of a script. -/
def first (σ : ℕ → Recv) (n : ℕ) : List Recv := (List.range n).map σ

/-- When a receive fails, and all later ones do so too, the function receives forever. -/
theorem nlParseInfo_forever {σ : ℕ → Recv} {k : ℕ}
    (hk : nlParseInfo o ack filter v (first σ k) = .waiting v')
    (hbroken : ∀ i, k ≤ i → IsBroken (σ i)) (n : ℕ) :
    ∃ v₁, nlParseInfo o ack filter v (first σ n) = .waiting v₁ := by
  have hsplit (m l : ℕ) : first σ (m + l) = first σ m ++ (List.range l).map fun i => σ (m + i) := by
    rw [first, List.range_add, List.map_append, List.map_map]
    rfl
  rcases Nat.le_total k n with hkn | hnk
  · obtain ⟨l, rfl⟩ := Nat.exists_eq_add_of_le hkn
    refine ⟨v', ?_⟩
    rw [hsplit, nlParseInfo_append hk]
    refine nlParseInfo_isBroken fun e he => ?_
    obtain ⟨i, -, rfl⟩ := List.mem_map.1 he
    exact hbroken (k + i) (Nat.le_add_right k i)
  · obtain ⟨l, rfl⟩ := Nat.exists_eq_add_of_le hnk
    rw [hsplit] at hk
    exact nlParseInfo_waiting_of_append hk

/-- A socket that is broken from the first receive on. -/
theorem nlParseInfo_forever_ebadf : ∃ v₁,
    nlParseInfo .little true none { recvBuff := List.replicate traceRecvBufLen 0 }
      (first (fun _ => .failure 9) 3) = .waiting v₁ :=
  nlParseInfo_forever (k := 0) rfl (fun _ _ => ⟨9, rfl, by decide, by decide, by decide⟩) 3

/-- The function does not return when the socket is broken. -/
theorem nlParseInfo_not_returns : ¬∀ (σ : ℕ → Recv) (k : ℕ) (v : NlVars),
    (∃ v', nlParseInfo .little true none v (first σ k) = .waiting v') →
      (∀ i, k ≤ i → IsBroken (σ i)) →
        ∃ n ret calls,
          nlParseInfo .little true none v (first σ n) = .returns ret calls ∧ ret < 0 := by
  intro h
  have hbroken : IsBroken (.failure 9) := ⟨9, rfl, by decide, by decide, by decide⟩
  let v : NlVars := { recvBuff := List.replicate traceRecvBufLen 0 }
  obtain ⟨n, ret, calls, hrun, -⟩ := h (fun _ => .failure 9) 0 v ⟨_, rfl⟩ fun _ _ => hbroken
  have hwait : nlParseInfo .little true none v (first (fun _ => .failure 9) n) = .waiting v :=
    nlParseInfo_isBroken fun e he => by
      obtain ⟨i, -, rfl⟩ := List.mem_map.1 he
      exact hbroken
  rw [hwait] at hrun
  cases hrun

end Mksh
