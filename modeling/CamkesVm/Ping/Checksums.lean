import CamkesVm.Ping.InternetChecksum
import CamkesVm.Ping.ReplyContents

/-!
# The checksums of an echo reply

The checksum is taken over a part of the reply in which its own field has been set to zero, by adding
the shorts as the machine reads them, and is stored as the machine stores a short. A receiver adds the
words of the same part in network order. The sum that it finds is the all-ones word whatever the part
holds: bytes of the request, the exchanged addresses or what the buffer held before.
-/

namespace CamkesVm.Ping

open CamkesVm.Machine

/-- What a checksum covers verifies once it is set, if its field was zero before. -/
theorem setChecksum_verifies {field start length : ℕ} (hstart : start ≤ field)
    (hinside : field + 2 ≤ start + length) (heven : (field - start) % 2 = 0)
    {b r : Bytes ethermtu} (hzero : window (List.ofFn b) field 2 = storedBytes 0)
    (h : setChecksum field start length b = some r) :
    onesSum (networkWords (window (List.ofFn r) start length)) = BitVec.allOnes 16 := by
  obtain ⟨data, hslice, hcopy⟩ := Option.bind_eq_some_iff.mp h
  have hfit : start + length ≤ 1500 := slice_bounds hslice
  obtain ⟨before, after, hbefore, hcovered, hset⟩ := window_stored hstart hinside hfit hcopy
  rw [hzero] at hcovered
  obtain ⟨hdvd, hpos⟩ := dvd_total_add_not (by decide) (storedWords (List.ofFn data))
  rw [← oneCompChecksum_eq data (by omega), ofFn_of_slice hslice, hcovered] at hdvd hpos
  rw [hset]
  exact onesSum_insert (by omega) hdvd hpos

/-- The sent bytes answer the received ones: the addresses are exchanged, and the id, the sequence and
the echoed bytes are the same. -/
structure Echoes (recv sent : List Byte) : Prop where
  dest : window sent hDest ethAlen = window recv hSource ethAlen
  source : window sent hSource ethAlen = window recv hDest ethAlen
  saddr : window sent ipSaddr ipv4Length = window recv ipDaddr ipv4Length
  daddr : window sent ipDaddr ipv4Length = window recv ipSaddr ipv4Length
  id : window sent icmpId 2 = window recv icmpId 2
  sequence : window sent icmpSequence 2 = window recv icmpSequence 2
  msg : window sent icmpMsg icmpMsgSize = window recv icmpMsg icmpMsgSize

section Replies

variable {n : ℕ} {recvData : Bytes n} {b r : Bytes ethermtu}

/-- The addresses of the IP header after they have been exchanged. -/
theorem swapAddresses_addresses (h : swapAddresses b = some r) :
    window (List.ofFn r) ipSaddr ipv4Length = window (List.ofFn b) ipDaddr ipv4Length ∧
    window (List.ofFn r) ipDaddr ipv4Length = window (List.ofFn b) ipSaddr ipv4Length := by
  unfold swapAddresses at h
  obtain ⟨saddr, hslice, h⟩ := Option.bind_eq_some_iff.mp h
  obtain ⟨u, hfirst, hsecond⟩ := Option.bind_eq_some_iff.mp h
  constructor
  · rw [← window_of_copy hfirst]
    refine window_congr (fun i _ hi => copy_outside hsecond i ?_) (by decide)
    change ¬ (30 ≤ i.val ∧ _)
    change i.val < 30 at hi
    omega
  · rw [window_of_copy hsecond, ← ofFn_of_slice hslice]
    rfl

/-- The assignments of an echo reply answer the request. -/
theorem icmpReplyFields_echo (h : fill (icmpReplyFields recvData) b = some r) :
    Echoes (List.ofFn recvData) (List.ofFn r) := by
  have hwrites := icmpReplyFields_writes recvData
  obtain ⟨before, after, hbefore, hswap, hkept⟩ := fill_field hwrites h 4 rfl
    (show ipSaddr + 2 * ipv4Length ≤ ethermtu by decide) (by decide)
  obtain ⟨hsaddr, hdaddr⟩ := swapAddresses_addresses hswap
  have hheader : window (List.ofFn before) ethhdr iphdr = window (List.ofFn recvData) ethhdr iphdr :=
    fill_copied (List.forall₂_take 4 hwrites) hbefore 3 rfl (by decide) (by decide)
  have hkeptSaddr := window_part hkept (show 0 + ipv4Length ≤ 2 * ipv4Length by decide)
  have hkeptDaddr := window_part hkept (show 4 + ipv4Length ≤ 2 * ipv4Length by decide)
  have hrecvSaddr := window_part hheader (show 12 + ipv4Length ≤ iphdr by decide)
  have hrecvDaddr := window_part hheader (show 16 + ipv4Length ≤ iphdr by decide)
  exact ⟨fill_copied hwrites h 0 rfl (by decide) (by decide),
    fill_copied hwrites h 1 rfl (by decide) (by decide),
    (hkeptSaddr.trans hsaddr).trans hrecvDaddr, (hkeptDaddr.trans hdaddr).trans hrecvSaddr,
    fill_copied hwrites h 6 rfl (by decide) (by decide),
    fill_copied hwrites h 5 rfl (by decide) (by decide),
    fill_copied hwrites h 8 rfl (by decide) (by decide)⟩

/-- The ICMP message of an echo reply verifies. -/
theorem icmpReplyFields_message (h : fill (icmpReplyFields recvData) b = some r) :
    onesSum (networkWords (window (List.ofFn r) icmpType (icmphdr + icmpMsgSize))) =
      BitVec.allOnes 16 := by
  have hwrites := icmpReplyFields_writes recvData
  obtain ⟨before, after, hbefore, hset, hkept⟩ := fill_field hwrites h 10 rfl
    (show icmpType + (icmphdr + icmpMsgSize) ≤ ethermtu by decide) (by decide)
  have hzero : window (List.ofFn before) icmpChecksum 2 = storedBytes 0 :=
    fill_copied (List.forall₂_take 10 hwrites) hbefore 9 rfl (by decide) (by decide)
  rw [hkept]
  exact setChecksum_verifies (by decide) (by decide) (by decide) hzero hset

/-- The IP header of an echo reply verifies. -/
theorem icmpReplyFields_header (h : fill (icmpReplyFields recvData) b = some r) :
    onesSum (networkWords (window (List.ofFn r) ethhdr iphdr)) = BitVec.allOnes 16 := by
  have hwrites := icmpReplyFields_writes recvData
  obtain ⟨before, after, hbefore, hset, hkept⟩ := fill_field hwrites h 12 rfl
    (show ethhdr + iphdr ≤ ethermtu by decide) (by decide)
  have hzero : window (List.ofFn before) ipCheck 2 = storedBytes 0 :=
    fill_copied (List.forall₂_take 12 hwrites) hbefore 11 rfl (by decide) (by decide)
  rw [hkept]
  exact setChecksum_verifies (by decide) (by decide) (by decide) hzero hset

/-- What is sent in reply has 98 bytes, and its fields are those of the assigned buffer. -/
theorem createIcmpReqReply_fill {sent : List Byte} (h : createIcmpReqReply b recvData = some sent) :
    ∃ r, fill (icmpReplyFields recvData) b = some r ∧
      sent.length = ethhdr + iphdr + icmphdr + icmpMsgSize ∧
      ∀ {off len}, off + len ≤ ethhdr + iphdr + icmphdr + icmpMsgSize →
        window sent off len = window (List.ofFn r) off len := by
  obtain ⟨r, hfill, hsend⟩ := Option.bind_eq_some_iff.mp h
  obtain ⟨vals, hslice, rfl⟩ := Option.map_eq_some_iff.mp hsend
  refine ⟨r, hfill, List.length_ofFn, fun hinside => ?_⟩
  rw [ofFn_of_slice hslice, window_window _ hinside, Nat.zero_add]

end Replies

/-- To every packet that holds the layout of an echo request a reply of 98 bytes is sent whose IP header
and ICMP message verify and that answers the request, whatever the reply buffer held. -/
theorem createIcmpReqReply_verifies {n : ℕ} (recvData : Bytes n) (replyBuffer : Bytes ethermtu)
    (hsize : ethhdr + iphdr + icmphdr + icmpMsgSize ≤ n) :
    ∃ sent, createIcmpReqReply replyBuffer recvData = some sent ∧
      sent.length = ethhdr + iphdr + icmphdr + icmpMsgSize ∧
      onesSum (networkWords (window sent ethhdr iphdr)) = 0xFFFF ∧
      onesSum (networkWords (window sent icmpType (icmphdr + icmpMsgSize))) = 0xFFFF ∧
      Echoes (List.ofFn recvData) sent := by
  have hisSome := (createIcmpReqReply_isSome_iff replyBuffer recvData).mpr hsize
  obtain ⟨sent, hsent⟩ := Option.isSome_iff_exists.mp hisSome
  obtain ⟨r, hfill, hlength, hfield⟩ := createIcmpReqReply_fill hsent
  have hecho := icmpReplyFields_echo hfill
  refine ⟨sent, hsent, hlength, ?_, ?_, ?_⟩
  · rw [hfield (by decide)]
    exact icmpReplyFields_header hfill
  · rw [hfield (by decide)]
    exact icmpReplyFields_message hfill
  · constructor <;> rw [hfield (by decide)]
    exacts [hecho.dest, hecho.source, hecho.saddr, hecho.daddr, hecho.id, hecho.sequence, hecho.msg]

/-- The reply to a blank packet of an echo request verifies. -/
theorem blankPacket_verifies :
    ∃ sent, createIcmpReqReply (fun _ => 0xFF) (blankPacket 98 ethPIp) = some sent ∧
      sent.length = ethhdr + iphdr + icmphdr + icmpMsgSize ∧
      onesSum (networkWords (window sent ethhdr iphdr)) = 0xFFFF ∧
      onesSum (networkWords (window sent icmpType (icmphdr + icmpMsgSize))) = 0xFFFF ∧
      Echoes (List.ofFn (blankPacket 98 ethPIp)) sent :=
  createIcmpReqReply_verifies _ _ (by decide)

end CamkesVm.Ping
