import CamkesVm.Ping.Packet

/-!
# When a packet can be handled

The client looks at the protocol in the Ethernet header and then takes the packet for one of the
fixed layout of that protocol, without asking how long it is. So the lengths decide: an ARP reply
needs 42 bytes of the request, an echo reply 98, and the packet behind the Ethernet header is copied
whole into a buffer of 1500 bytes.
-/

namespace CamkesVm.Ping

open CamkesVm.Machine

section Replies

variable {n : ℕ} (replyBuffer : Bytes ethermtu) (recvData : Bytes n)

/-- What is sent lies inside the reply buffer. -/
theorem sendOutgoingPacket_isSome (reply : Bytes ethermtu) {size : ℕ} (h : size ≤ ethermtu) :
    (sendOutgoingPacket reply size).isSome = true := by
  rw [sendOutgoingPacket, Option.isSome_map]
  exact isSome_slice reply (by rwa [Nat.zero_add])

/-- The addresses of the IP header lie inside the reply buffer. -/
theorem swapAddresses_isSome (reply : Bytes ethermtu) : (swapAddresses reply).isSome = true := by
  unfold swapAddresses
  refine isSome_bind_of (isSome_slice reply (by decide)) fun saddr => ?_
  refine isSome_bind_of (isSome_copy (by decide) (by decide)) fun swapped => ?_
  exact isSome_copy (by decide) (by decide)

/-- A checksum field and what it covers lie inside the reply buffer. -/
theorem setChecksum_isSome {field start length : ℕ} (hfield : field + 2 ≤ ethermtu)
    (hcovered : start + length ≤ ethermtu) (reply : Bytes ethermtu) :
    (setChecksum field start length reply).isSome = true :=
  isSome_bind_of (isSome_slice reply hcovered) fun _ => isSome_copy hfield (by decide)

/-- The ARP reply reads the request up to the end of the ARP packet. -/
theorem createArpReqReply_isSome_iff :
    (createArpReqReply replyBuffer recvData).isSome = true ↔ ethhdr + etherArp ≤ n := by
  refine ⟨fun h => ?_, fun h => ?_⟩
  · obtain ⟨sent, hsent⟩ := Option.isSome_iff_exists.mp h
    obtain ⟨reply, hfill, _⟩ := Option.bind_eq_some_iff.mp hsent
    have hmem : (fun reply => copy reply arpSpa recvData arpTpa ipv4Length) ∈
        arpReplyFields recvData := by
      simp [arpReplyFields]
    obtain ⟨_, _, hcopy⟩ := step_of_fill hfill hmem
    exact (copy_bounds hcopy).2
  · have hrecv {off count : ℕ} (hfield : off + count ≤ ethhdr + etherArp) : off + count ≤ n :=
      hfield.trans h
    refine isSome_bind_of (isSome_fill ?_ _) fun reply => sendOutgoingPacket_isSome reply (by decide)
    simp only [arpReplyFields, List.forall_mem_cons]
    refine ⟨fun _ => isSome_copy (by decide) (hrecv (by decide)),
      fun _ => isSome_copy (by decide) (by decide),
      fun _ => isSome_copy (by decide) (hrecv (by decide)),
      fun _ => isSome_copy (by decide) (hrecv (by decide)),
      fun reply => isSome_bind_of (isSome_slice reply (by decide)) fun _ =>
        isSome_copy (by decide) (by decide),
      fun _ => isSome_copy (by decide) (by decide),
      fun _ => isSome_copy (by decide) (hrecv (by decide)),
      fun _ => isSome_copy (by decide) (hrecv (by decide)), ?_, ?_, ?_, ?_, ?_, nofun⟩
    all_goals exact fun _ => isSome_copy (by decide) (by decide)

/-- The echo reply reads the request up to the end of the echoed bytes. -/
theorem createIcmpReqReply_isSome_iff :
    (createIcmpReqReply replyBuffer recvData).isSome = true ↔ icmpMsg + icmpMsgSize ≤ n := by
  refine ⟨fun h => ?_, fun h => ?_⟩
  · obtain ⟨sent, hsent⟩ := Option.isSome_iff_exists.mp h
    obtain ⟨reply, hfill, _⟩ := Option.bind_eq_some_iff.mp hsent
    have hmem : (fun reply => copy reply icmpMsg recvData icmpMsg icmpMsgSize) ∈
        icmpReplyFields recvData := by simp [icmpReplyFields]
    obtain ⟨_, _, hcopy⟩ := step_of_fill hfill hmem
    exact (copy_bounds hcopy).2
  · have hrecv {off count : ℕ} (hfield : off + count ≤ icmpMsg + icmpMsgSize) : off + count ≤ n :=
      hfield.trans h
    refine isSome_bind_of (isSome_fill ?_ _) fun reply => sendOutgoingPacket_isSome reply (by decide)
    simp only [icmpReplyFields, List.forall_mem_cons]
    exact ⟨fun _ => isSome_copy (by decide) (hrecv (by decide)),
      fun _ => isSome_copy (by decide) (hrecv (by decide)),
      fun _ => isSome_copy (by decide) (by decide),
      fun _ => isSome_copy (by decide) (hrecv (by decide)),
      swapAddresses_isSome,
      fun _ => isSome_copy (by decide) (hrecv (by decide)),
      fun _ => isSome_copy (by decide) (hrecv (by decide)),
      fun _ => isSome_copy (by decide) (by decide),
      fun _ => isSome_copy (by decide) h,
      fun _ => isSome_copy (by decide) (by decide),
      setChecksum_isSome (by decide) (by decide),
      fun _ => isSome_copy (by decide) (by decide),
      setChecksum_isSome (by decide) (by decide), nofun⟩

end Replies

/-- A packet is printed when it fits the local buffer. -/
theorem printIpPacket_isSome (ipBuf : Bytes ethermtu) {ipLength : ℕ} (h : ipLength ≤ ethermtu) :
    (printIpPacket ipBuf ipLength).isSome = true := by
  have hfields : ∀ field ∈ printedFields, field.1 + field.2 ≤ ethermtu := by decide
  unfold printIpPacket
  refine isSome_bind_of (isSome_slice ipBuf (by rwa [Nat.zero_add])) fun contents => ?_
  refine isSome_bind_of (isSome_mapM_of fun field hfield => ?_) fun fields => rfl
  rw [Option.isSome_map]
  exact isSome_slice ipBuf (hfields field hfield)

/-- The length behind the Ethernet header does not wrap for a packet that holds the header. -/
theorem ipPacketSize_eq {recvDataSize : BitVec 32} (h : ethhdr ≤ recvDataSize.toNat) :
    ipPacketSize recvDataSize = recvDataSize.toNat - ethhdr := by
  have hlt := recvDataSize.isLt
  change 14 ≤ _ at h
  change (recvDataSize.setWidth 64 - 14#64).toNat = recvDataSize.toNat - 14
  rw [BitVec.toNat_sub, BitVec.toNat_setWidth, BitVec.toNat_ofNat]
  omega

/-- The bytes of an IP packet are copied, printed and answered when they fit the local buffer and
hold the layout of an echo request. -/
theorem ipBranch_isSome_iff {ipPacket replyBuffer : Bytes ethermtu} {recvDataSize : BitVec 32}
    {recvData : Bytes recvDataSize.toNat} (hheader : ethhdr ≤ recvDataSize.toNat) :
    ((copy ipPacket 0 recvData ethhdr (ipPacketSize recvDataSize)).bind fun packet =>
      (printIpPacket packet (ipPacketSize recvDataSize)).bind fun _ =>
        (createIcmpReqReply replyBuffer recvData).map some).isSome = true ↔
      icmpMsg + icmpMsgSize ≤ recvDataSize.toNat ∧ recvDataSize.toNat ≤ ethhdr + ethermtu := by
  rw [ipPacketSize_eq hheader]
  refine ⟨fun h => ?_, fun ⟨hlayout, hfits⟩ => ?_⟩
  · obtain ⟨sent, hsent⟩ := Option.isSome_iff_exists.mp h
    obtain ⟨packet, hcopy, hrest⟩ := Option.bind_eq_some_iff.mp hsent
    obtain ⟨_, _, hcreate⟩ := Option.bind_eq_some_iff.mp hrest
    have hreply : ((createIcmpReqReply replyBuffer recvData).map some).isSome = true := by
      rw [hcreate]
      rfl
    rw [Option.isSome_map, createIcmpReqReply_isSome_iff] at hreply
    have hdst := (copy_bounds hcopy).1
    exact ⟨hreply, by omega⟩
  · have hpacket : recvDataSize.toNat - ethhdr ≤ ethermtu := by omega
    refine isSome_bind_of (isSome_copy (by omega) (by omega)) fun packet => ?_
    refine isSome_bind_of (printIpPacket_isSome packet hpacket) fun _ => ?_
    rw [Option.isSome_map, createIcmpReqReply_isSome_iff]
    exact hlayout

/-- A packet is handled without leaving an array exactly when it is long enough for the layout of its
protocol, and an IP packet not too long for the local buffer. -/
theorem handleRecvData_isSome_iff (ipPacket replyBuffer : Bytes ethermtu) (recvDataSize : BitVec 32)
    (recvData : Bytes recvDataSize.toNat) :
    (handleRecvData ipPacket replyBuffer recvDataSize recvData).isSome = true ↔
      ethhdr ≤ recvDataSize.toNat ∧
      (etherProto recvData = some ethPArp → ethhdr + etherArp ≤ recvDataSize.toNat) ∧
      (etherProto recvData = some ethPIp → icmpMsg + icmpMsgSize ≤ recvDataSize.toNat ∧
        recvDataSize.toNat ≤ ethhdr + ethermtu) := by
  have hkinds : ethPArp ≠ ethPIp := by decide
  cases hproto : etherProto recvData with
  | none =>
    -- The protocol itself lies outside the packet.
    have hshort : ¬ ethhdr ≤ recvDataSize.toNat := by
      intro hheader
      have hread := isSome_slice recvData (show hProto + 2 ≤ recvDataSize.toNat from hheader)
      rw [etherProto, Option.map_eq_none_iff] at hproto
      rw [hproto] at hread
      exact absurd hread (by simp)
    simp [handleRecvData, hproto, hshort]
  | some proto =>
    obtain ⟨bytes, hbytes, _⟩ := Option.map_eq_some_iff.mp hproto
    have hheader : ethhdr ≤ recvDataSize.toNat := slice_bounds hbytes
    have hhandle : handleRecvData ipPacket replyBuffer recvDataSize recvData =
        if proto = ethPArp then (createArpReqReply replyBuffer recvData).map some
        else if proto = ethPIp then
          (copy ipPacket 0 recvData ethhdr (ipPacketSize recvDataSize)).bind fun packet =>
            (printIpPacket packet (ipPacketSize recvDataSize)).bind fun _ =>
              (createIcmpReqReply replyBuffer recvData).map some
        else some none := by
      simp only [handleRecvData, hproto, Option.map_eq_bind]
      rfl
    rw [hhandle]
    simp only [Option.some.injEq, hheader, true_and]
    split_ifs with harp hip
    · subst harp
      rw [Option.isSome_map, createArpReqReply_isSome_iff]
      simp [hkinds]
    · subst hip
      rw [ipBranch_isSome_iff hheader]
      simp [Ne.symm hkinds]
    · simp [harp, hip]

/-- A packet of the given size and protocol, otherwise zero. -/
def blankPacket (size : BitVec 32) (proto : BitVec 16) : Bytes size.toNat := fun i =>
  if i.val = hProto then (proto >>> 8).setWidth 8
  else if i.val = hProto + 1 then proto.setWidth 8 else 0

/-- A packet without a whole header, an ARP request and an echo request that are one byte short, and
an IP packet one byte too long for the local buffer are not handled inside the arrays. -/
theorem blankPacket_out_of_bounds :
    handleRecvData (fun _ => 0) (fun _ => 0) 13 (blankPacket 13 ethPIp) = none ∧
    handleRecvData (fun _ => 0) (fun _ => 0) 41 (blankPacket 41 ethPArp) = none ∧
    handleRecvData (fun _ => 0) (fun _ => 0) 97 (blankPacket 97 ethPIp) = none ∧
    handleRecvData (fun _ => 0) (fun _ => 0) 1515 (blankPacket 1515 ethPIp) = none := by
  refine ⟨by decide, by decide, by decide, by decide⟩

end CamkesVm.Ping
