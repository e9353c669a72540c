import Mathlib.Data.List.OfFn
import CamkesVm.Machine.Window
import CamkesVm.Ping.PacketSafety

/-!
# What a reply depends on

The replies are assembled in local buffers that are not initialised. Every byte of an ARP reply is
assigned from the request or a constant. In an echo reply the code of the ICMP header is the one
byte that is not: it is sent as the buffer held it, and the checksum is taken over it.
-/

namespace CamkesVm.Ping

open CamkesVm.Machine

section Replies

variable {n : ℕ} (recvData : Bytes n)

/-- The assignments of an ARP reply make all its bytes known. -/
theorem arpReplyFields_spread : Spreads (fun _ => False) (fun i => i < ethhdr + etherArp)
    (fill (arpReplyFields recvData)) := by
  unfold arpReplyFields
  refine
    .fill_cons (fun i => i < 6) (.copy ?_) <|
    .fill_cons (fun i => i < 6 ∨ 12 ≤ i ∧ i < 14) (.copy ?_) <|
    .fill_cons (fun i => i < 6 ∨ 12 ≤ i ∧ i < 14 ∨ 32 ≤ i ∧ i < 38) (.copy ?_) <|
    .fill_cons (fun i => i < 6 ∨ 12 ≤ i ∧ i < 14 ∨ 22 ≤ i ∧ i < 28 ∨ 32 ≤ i ∧ i < 38) (.copy ?_) <|
    .fill_cons (fun i => i < 6 ∨ 12 ≤ i ∧ i < 14 ∨ 22 ≤ i ∧ i < 28 ∨ 32 ≤ i ∧ i < 38)
      (.copy_slice (fun last i => last i + 2) ?_ ?_) <|
    .fill_cons (fun i => i < 14 ∨ 22 ≤ i ∧ i < 28 ∨ 32 ≤ i ∧ i < 38) (.copy_self ?_ ?_) <|
    .fill_cons (fun i => i < 14 ∨ 22 ≤ i ∧ i < 38) (.copy ?_) <|
    .fill_cons (fun i => i < 14 ∨ 22 ≤ i ∧ i < 42) (.copy ?_) <|
    .fill_cons (fun i => i < 16 ∨ 22 ≤ i ∧ i < 42) (.copy ?_) <|
    .fill_cons (fun i => i < 18 ∨ 22 ≤ i ∧ i < 42) (.copy ?_) <|
    .fill_cons (fun i => i < 18 ∨ 20 ≤ i ∧ i < 42) (.copy ?_) <|
    .fill_cons (fun i => i < 19 ∨ 20 ≤ i ∧ i < 42) (.copy ?_) <|
    .fill_cons _ (.copy ?_) .fill_nil
  all_goals
    intro i hi
    simp only [hDest, hSource, hProto, arHrd, arPro, arHln, arPln, arOp, arpSha, arpSpa, arpTha, arpTpa,
      ethhdr, etherArp, ethAlen, ipv4Length] at hi ⊢
    omega

/-- Exchanging the addresses keeps known what is known, if the addresses are. -/
theorem swapAddresses_spreads {known : ℕ → Prop}
    (h : ∀ i, ipSaddr ≤ i ∧ i < ipDaddr + ipv4Length → known i) :
    Spreads known known swapAddresses := by
  have hsaddr : ∀ i, ipSaddr ≤ i ∧ i < ipSaddr + ipv4Length → known i := fun i hi =>
    h i ⟨hi.1, hi.2.trans (by decide)⟩
  have hdaddr : ∀ i, ipDaddr ≤ i ∧ i < ipDaddr + ipv4Length → known i := fun i hi =>
    h i ⟨le_trans (by decide) hi.1, hi.2⟩
  intro b b' hagree
  unfold swapAddresses
  rw [hagree.slice hsaddr]
  cases slice b' ipSaddr ipv4Length with
  | none => exact .none
  | some saddr =>
    have hswap : Spreads known known fun b : Bytes ethermtu =>
        (copy b ipSaddr b ipDaddr ipv4Length).bind fun r => copy r ipDaddr saddr 0 ipv4Length :=
      (Spreads.copy_self hdaddr fun _ => Or.inl).bind (.copy fun _ => Or.inl)
    exact hswap b b' hagree

/-- The assignments of an echo reply make all its bytes known, given the code. -/
theorem icmpReplyFields_spread :
    Spreads (fun i => i = icmpCode) (fun i => i < ethhdr + iphdr + icmphdr + icmpMsgSize)
      (fill (icmpReplyFields recvData)) := by
  unfold icmpReplyFields setChecksum
  refine
    .fill_cons (fun i => i < 6 ∨ i = 35) (.copy ?_) <|
    .fill_cons (fun i => i < 12 ∨ i = 35) (.copy ?_) <|
    .fill_cons (fun i => i < 14 ∨ i = 35) (.copy ?_) <|
    .fill_cons (fun i => i < 34 ∨ i = 35) (.copy ?_) <|
    .fill_cons (fun i => i < 34 ∨ i = 35) (swapAddresses_spreads ?_) <|
    .fill_cons (fun i => i < 34 ∨ i = 35 ∨ 40 ≤ i ∧ i < 42) (.copy ?_) <|
    .fill_cons (fun i => i < 34 ∨ i = 35 ∨ 38 ≤ i ∧ i < 42) (.copy ?_) <|
    .fill_cons (fun i => i < 36 ∨ 38 ≤ i ∧ i < 42) (.copy ?_) <|
    .fill_cons (fun i => i < 36 ∨ 38 ≤ i ∧ i < 98) (.copy ?_) <|
    .fill_cons (fun i => i < 98) (.copy ?_) <|
    .fill_cons (fun i => i < 98) (.copy_slice (fun data => shortBytes (oneCompChecksum data)) ?_ ?_) <|
    .fill_cons (fun i => i < 98) (.copy ?_) <|
    .fill_cons _ (.copy_slice (fun data => shortBytes (oneCompChecksum data)) ?_ ?_) .fill_nil
  all_goals
    intro i hi
    simp only [hDest, hSource, hProto, ipSaddr, ipDaddr, ipCheck, icmpType, icmpCode, icmpChecksum,
      icmpId, icmpSequence, icmpMsg, ethhdr, iphdr, icmphdr, icmpMsgSize, ethAlen, ipv4Length] at hi ⊢
    omega

/-- The index of the code in a reply buffer. -/
def codeIndex : Fin ethermtu := ⟨icmpCode, by decide⟩

/-- Exchanging the addresses writes the addresses. -/
theorem swapAddresses_writes : Writes (ipSaddr, 2 * ipv4Length) swapAddresses := by
  intro b r h i hi
  unfold swapAddresses at h
  obtain ⟨saddr, _, h⟩ := Option.bind_eq_some_iff.mp h
  obtain ⟨u, hfirst, hsecond⟩ := Option.bind_eq_some_iff.mp h
  change ¬ (26 ≤ i.val ∧ i.val < 26 + 8) at hi
  have hsaddr : ¬ (ipSaddr ≤ i.val ∧ i.val < ipSaddr + ipv4Length) := by
    change ¬ (26 ≤ i.val ∧ i.val < 26 + 4)
    omega
  have hdaddr : ¬ (ipDaddr ≤ i.val ∧ i.val < ipDaddr + ipv4Length) := by
    change ¬ (30 ≤ i.val ∧ i.val < 30 + 4)
    omega
  rw [copy_outside hsecond i hdaddr, copy_outside hfirst i hsaddr]

/-- Setting a checksum writes its field. -/
theorem setChecksum_writes (field start length : ℕ) :
    Writes (field, 2) (setChecksum field start length) := by
  intro b r h i hi
  obtain ⟨data, _, h⟩ := Option.bind_eq_some_iff.mp h
  exact copy_outside h i hi

/-- What the assignments of an echo reply write. -/
def icmpReplyRanges : List (ℕ × ℕ) :=
  [(hDest, ethAlen), (hSource, ethAlen), (hProto, 2), (ethhdr, iphdr), (ipSaddr, 2 * ipv4Length),
    (icmpSequence, 2), (icmpId, 2), (icmpType, 1), (icmpMsg, icmpMsgSize), (icmpChecksum, 2),
    (icmpChecksum, 2), (ipCheck, 2), (ipCheck, 2)]

/-- Every assignment of an echo reply stays inside its range. -/
theorem icmpReplyFields_writes : List.Forall₂ Writes icmpReplyRanges (icmpReplyFields recvData) :=
  .cons (.copy _ _ _ _) <| .cons (.copy _ _ _ _) <| .cons (.copy _ _ _ _) <| .cons (.copy _ _ _ _) <|
  .cons swapAddresses_writes <| .cons (.copy _ _ _ _) <| .cons (.copy _ _ _ _) <|
  .cons (.copy _ _ _ _) <| .cons (.copy _ _ _ _) <| .cons (.copy _ _ _ _) <|
  .cons (setChecksum_writes _ _ _) <| .cons (.copy _ _ _ _) <| .cons (setChecksum_writes _ _ _) .nil

/-- No assignment of an echo reply touches the code. -/
theorem icmpReplyFields_code {b r : Bytes ethermtu} (h : fill (icmpReplyFields recvData) b = some r) :
    r codeIndex = b codeIndex :=
  fill_apart (icmpReplyFields_writes recvData) h codeIndex (by decide)

variable (b b' : Bytes ethermtu)

/-- Programs that make known all bytes that are sent send the same. -/
theorem send_eq_of_spreads {known : ℕ → Prop} {b b' : Bytes ethermtu} {size : ℕ}
    {steps : List (Bytes ethermtu → Option (Bytes ethermtu))}
    (hspread : Spreads known (fun i => i < size) (fill steps)) (h : AgreeOn known b b') :
    ((fill steps b).bind fun reply => sendOutgoingPacket reply size) =
      (fill steps b').bind fun reply => sendOutgoingPacket reply size := by
  have hrel := hspread b b' h
  generalize fill steps b = r at hrel
  generalize fill steps b' = r' at hrel
  cases hrel with
  | none => rfl
  | some hagree =>
    simp only [Option.bind_some, sendOutgoingPacket]
    rw [hagree.slice fun i hi => by omega]

/-- Buffers of which the same is sent agree on what is sent. -/
theorem agreeOn_of_send_eq {r r' : Bytes ethermtu} {size : ℕ} (hsize : size ≤ ethermtu)
    (h : sendOutgoingPacket r size = sendOutgoingPacket r' size) : AgreeOn (fun i => i < size) r r' := by
  have hbounds : 0 + size ≤ ethermtu := by rwa [Nat.zero_add]
  intro i hi
  simp only [sendOutgoingPacket, slice, dif_pos hbounds, Option.map_some, Option.some.injEq] at h
  simpa using congrFun (List.ofFn_injective h) ⟨i, hi⟩

/-- An ARP reply does not depend on the buffer. -/
theorem createArpReqReply_eq : createArpReqReply b recvData = createArpReqReply b' recvData :=
  send_eq_of_spreads (arpReplyFields_spread recvData) fun _ h => h.elim

/-- An echo reply depends on the code in the buffer, and on nothing else of it. -/
theorem createIcmpReqReply_eq_iff (h : icmpMsg + icmpMsgSize ≤ n) :
    createIcmpReqReply b recvData = createIcmpReqReply b' recvData ↔ b codeIndex = b' codeIndex := by
  refine ⟨fun heq => ?_, fun hcode => ?_⟩
  · have hisSome := (createIcmpReqReply_isSome_iff b recvData).mpr h
    obtain ⟨sent, hsent⟩ := Option.isSome_iff_exists.mp hisSome
    have hsent' := heq.symm.trans hsent
    obtain ⟨r, hr, hsend⟩ := Option.bind_eq_some_iff.mp hsent
    obtain ⟨r', hr', hsend'⟩ := Option.bind_eq_some_iff.mp hsent'
    rw [← icmpReplyFields_code recvData hr, ← icmpReplyFields_code recvData hr']
    exact agreeOn_of_send_eq (by decide) (hsend.trans hsend'.symm) codeIndex (by decide)
  · refine send_eq_of_spreads (icmpReplyFields_spread recvData) fun i hi => ?_
    obtain rfl : i = codeIndex := Fin.ext hi
    exact hcode

/-- What is sent in reply to a packet. -/
def replyTo : Option (List Byte) := do
  let proto ← etherProto recvData
  if proto = ethPArp then createArpReqReply b recvData
  else if proto = ethPIp then createIcmpReqReply b recvData
  else none

end Replies

/-- It is what `handle_recv_data` sends. -/
theorem replyTo_of_handleRecvData {ipPacket b : Bytes ethermtu} {recvDataSize : BitVec 32}
    {recvData : Bytes recvDataSize.toNat} {sent : List Byte}
    (h : handleRecvData ipPacket b recvDataSize recvData = some (some sent)) :
    replyTo recvData b = some sent := by
  unfold handleRecvData at h
  unfold replyTo
  obtain ⟨proto, hproto, h⟩ := Option.bind_eq_some_iff.mp h
  simp only [hproto, Option.bind_eq_bind, Option.bind_some]
  split_ifs at h ⊢ with harp hip
  · obtain ⟨_, hcreate, hsent⟩ := Option.bind_eq_some_iff.mp h
    rw [hcreate, Option.some.inj (Option.some.inj hsent)]
  · obtain ⟨_, _, h⟩ := Option.bind_eq_some_iff.mp h
    obtain ⟨_, _, h⟩ := Option.bind_eq_some_iff.mp h
    obtain ⟨_, hcreate, hsent⟩ := Option.bind_eq_some_iff.mp h
    rw [hcreate, Option.some.inj (Option.some.inj hsent)]
  · exact absurd h (by simp)

/-- For a packet that holds the layout of an echo request, what is sent in reply does not depend on
the reply buffer exactly when the packet is an ARP request or the code in the buffer is the same. -/
theorem replyTo_eq_iff {n : ℕ} (recvData : Bytes n) (b b' : Bytes ethermtu)
    (hsize : ethhdr + iphdr + icmphdr + icmpMsgSize ≤ n)
    (hproto : etherProto recvData = some ethPArp ∨ etherProto recvData = some ethPIp) :
    replyTo recvData b = replyTo recvData b' ↔
      etherProto recvData = some ethPArp ∨ b codeIndex = b' codeIndex := by
  obtain harp | hip := hproto
  · refine iff_of_true ?_ (Or.inl harp)
    simp only [replyTo, harp, Option.bind_eq_bind, Option.bind_some, if_true]
    exact createArpReqReply_eq recvData b b'
  · have hkind : ethPIp ≠ ethPArp := by decide
    simp only [replyTo, hip, Option.bind_eq_bind, Option.bind_some, if_true, Option.some.injEq,
      hkind, false_or]
    exact createIcmpReqReply_eq_iff recvData b b' hsize

/-- An ARP request is answered alike from different buffers. -/
theorem replyTo_arp_eq :
    replyTo (blankPacket 98 ethPArp) (fun _ => 0) = replyTo (blankPacket 98 ethPArp) (fun _ => 1) :=
  (replyTo_eq_iff _ _ _ (by decide) (Or.inl (by decide))).mpr (Or.inl (by decide))

/-- An echo request is answered differently from buffers that hold different codes. -/
theorem replyTo_echo_ne :
    etherProto (blankPacket 98 ethPIp) = some ethPIp ∧
    replyTo (blankPacket 98 ethPIp) (fun _ => 0) ≠ replyTo (blankPacket 98 ethPIp) (fun _ => 1) := by
  have hproto : etherProto (blankPacket 98 ethPIp) = some ethPIp := by decide
  have hreply (b : Bytes ethermtu) :
      replyTo (blankPacket 98 ethPIp) b = createIcmpReqReply b (blankPacket 98 ethPIp) := by
    simp only [replyTo, hproto]
    rfl
  refine ⟨hproto, ?_⟩
  rw [hreply, hreply, ne_eq, createIcmpReqReply_eq_iff _ _ _ (by decide)]
  decide

end CamkesVm.Ping
