import CamkesVm.Ping.Checksums

/-!
# Which echo requests are answered

An echo request is an IPv4 packet in an Ethernet frame with an ICMP message behind a header of any
length, and its answer is such a frame with the same id, sequence and payload. The client takes every
request for one with a header of 20 bytes and a message of 64, and sends as many. The lengths that it
copies from the request then say something else than what it sends, a longer header moves the message
away from where the client writes it, and the code is sent as the buffer held it.
-/

namespace CamkesVm.Ping

open CamkesVm.Machine

section Frames

variable (frame : List Byte)

/-- A byte of a frame. -/
def byteAt (off : ℕ) : Byte := frame.getD off 0

/-- A short of a frame, in network order. -/
def shortAt (off : ℕ) : BitVec 16 := ntohs ![byteAt frame off, byteAt frame (off + 1)]

/-- The length of the IP header, in bytes. -/
def headerLength : ℕ := 4 * (byteAt frame ethhdr &&& 0x0F).toNat

/-- The length of the IP packet that its header gives. -/
def totalLength : ℕ := (shortAt frame (ethhdr + 2)).toNat

/-- Where the ICMP message starts. -/
def messageStart : ℕ := ethhdr + headerLength frame

/-- The payload of the ICMP message. -/
def payload : List Byte :=
  window frame (messageStart frame + icmphdr) (totalLength frame - (headerLength frame + icmphdr))

/-- The frame holds an IPv4 packet with an ICMP message, both with a checksum that verifies. -/
structure IcmpFrame : Prop where
  ethertype : shortAt frame hProto = ethPIp
  version : byteAt frame ethhdr >>> 4 = 4
  header : iphdr ≤ headerLength frame
  message : headerLength frame + icmphdr ≤ totalLength frame
  length : frame.length = ethhdr + totalLength frame
  protocol : byteAt frame (ethhdr + 9) = 1
  headerSum : onesSum (networkWords (window frame ethhdr (headerLength frame))) = 0xFFFF
  messageSum : onesSum (networkWords
    (window frame (messageStart frame) (totalLength frame - headerLength frame))) = 0xFFFF

/-- The frame is an echo request of at most 1500 bytes. -/
structure EchoRequest : Prop extends IcmpFrame frame where
  short : frame.length ≤ ethermtu
  type : byteAt frame (messageStart frame) = 8
  code : byteAt frame (messageStart frame + 1) = 0

/-- The reply answers the request. -/
structure EchoReplyTo (request reply : List Byte) : Prop extends IcmpFrame reply where
  type : byteAt reply (messageStart reply) = icmpEchoreply
  code : byteAt reply (messageStart reply + 1) = 0
  id : window reply (messageStart reply + 4) 2 = window request (messageStart request + 4) 2
  sequence : window reply (messageStart reply + 6) 2 = window request (messageStart request + 6) 2
  payload : payload reply = payload request
  dest : window reply hDest ethAlen = window request hSource ethAlen
  source : window reply hSource ethAlen = window request hDest ethAlen
  saddr : window reply ipSaddr ipv4Length = window request ipDaddr ipv4Length
  daddr : window reply ipDaddr ipv4Length = window request ipSaddr ipv4Length

end Frames

/-- A byte of a window is a byte of the frame. -/
theorem byteAt_window (frame : List Byte) {off len k : ℕ} (hk : k < len) :
    byteAt (window frame off len) k = byteAt frame (off + k) := by
  unfold byteAt window
  rw [List.getD_eq_getElem?_getD, List.getD_eq_getElem?_getD, List.getElem?_take_of_lt hk,
    List.getElem?_drop]

/-- Equal windows have equal bytes. -/
theorem byteAt_of_window_eq {frame frame' : List Byte} {off off' len : ℕ}
    (h : window frame off len = window frame' off' len) {k : ℕ} (hk : k < len) :
    byteAt frame (off + k) = byteAt frame' (off' + k) := by
  rw [← byteAt_window frame hk, h, byteAt_window frame' hk]

/-- A byte of an array. -/
theorem byteAt_ofFn {n : ℕ} (data : Bytes n) {k : ℕ} (hk : k < n) :
    byteAt (List.ofFn data) k = data ⟨k, hk⟩ := by
  rw [byteAt, List.getD_eq_getElem?_getD, List.getElem?_ofFn, dif_pos hk]
  rfl

/-- The protocol that the client reads is the one in the Ethernet header. -/
theorem etherProto_eq {n : ℕ} (recvData : Bytes n) (h : ethhdr ≤ n) :
    etherProto recvData = some (shortAt (List.ofFn recvData) hProto) := by
  have hbounds : hProto + 2 ≤ n := h
  have hbytes : (fun i : Fin 2 => recvData ⟨hProto + i, by omega⟩) =
      ![byteAt (List.ofFn recvData) hProto, byteAt (List.ofFn recvData) (hProto + 1)] := by
    rw [byteAt_ofFn recvData (show hProto < n by omega),
      byteAt_ofFn recvData (show hProto + 1 < n by omega)]
    funext i
    match i with
    | 0 => rfl
    | 1 => rfl
  rw [etherProto, slice, dif_pos hbounds, Option.map_some, hbytes]
  rfl

section Replies

variable {n : ℕ} {recvData : Bytes n} {b : Bytes ethermtu} {sent : List Byte}

/-- The fields of the IP header before its checksum are those of the request. -/
theorem reply_header (h : createIcmpReqReply b recvData = some sent) :
    window sent ethhdr 10 = window (List.ofFn recvData) ethhdr 10 := by
  obtain ⟨r, hfill, _, hfield⟩ := createIcmpReqReply_fill h
  obtain ⟨before, after, _, hstep, hkept⟩ := fill_field (icmpReplyFields_writes recvData) hfill 3 rfl
    (show ethhdr + 10 ≤ ethermtu by decide) (by decide)
  have hcopied := window_part (window_of_copy hstep) (show 0 + 10 ≤ iphdr by decide)
  rw [hfield (by decide), hkept]
  exact hcopied

/-- Everything behind the checksum of the ICMP header is that of the request. -/
theorem reply_message (h : createIcmpReqReply b recvData = some sent) :
    window sent icmpId (2 + 2 + icmpMsgSize) =
      window (List.ofFn recvData) icmpId (2 + 2 + icmpMsgSize) := by
  obtain ⟨r, hfill, _, hfield⟩ := createIcmpReqReply_fill h
  have hecho := icmpReplyFields_echo hfill
  rw [hfield (by decide)]
  simp only [window_add]
  exact congrArg₂ _ (congrArg₂ _ hecho.id hecho.sequence) hecho.msg

/-- The reply gives the length of the request's header. -/
theorem headerLength_reply (h : createIcmpReqReply b recvData = some sent) :
    headerLength sent = headerLength (List.ofFn recvData) := by
  unfold headerLength
  rw [byteAt_of_window_eq (reply_header h) (show 0 < 10 by decide)]

/-- The reply gives the length of the request. -/
theorem totalLength_reply (h : createIcmpReqReply b recvData = some sent) :
    totalLength sent = totalLength (List.ofFn recvData) := by
  unfold totalLength shortAt
  rw [byteAt_of_window_eq (reply_header h) (show 2 < 10 by decide),
    byteAt_of_window_eq (reply_header h) (show 3 < 10 by decide)]

/-- The code of the reply is the one in the buffer. -/
theorem code_reply (h : createIcmpReqReply b recvData = some sent) :
    byteAt sent icmpCode = b codeIndex := by
  obtain ⟨r, hfill, _, hfield⟩ := createIcmpReqReply_fill h
  have hcode := byteAt_of_window_eq (hfield (show icmpCode + 1 ≤ _ by decide)) (show 0 < 1 by decide)
  have hindex : byteAt (List.ofFn r) icmpCode = r codeIndex := byteAt_ofFn r (by decide)
  rw [← icmpReplyFields_code recvData hfill, ← hindex]
  exact hcode

/-- The reply to a request with options in its header has the request's type: the message of the reply
starts in what is copied. -/
theorem type_reply (h : createIcmpReqReply b recvData = some sent)
    (hheader : iphdr < headerLength (List.ofFn recvData)) :
    byteAt sent (messageStart sent) =
      byteAt (List.ofFn recvData) (messageStart (List.ofFn recvData)) := by
  have hlen : headerLength (List.ofFn recvData) ≤ 60 := by
    have hnibble : (byteAt (List.ofFn recvData) ethhdr &&& 0x0F).toNat ≤ 15 := by
      rw [BitVec.toNat_and]
      exact Nat.and_le_right
    unfold headerLength
    omega
  have hmultiple : headerLength (List.ofFn recvData) % 4 = 0 := by
    unfold headerLength
    omega
  unfold messageStart
  rw [headerLength_reply h]
  generalize headerLength (List.ofFn recvData) = len at *
  change 20 < len at hheader
  obtain ⟨k, rfl⟩ : ∃ k, len = 24 + k := ⟨len - 24, by omega⟩
  have hbyte := byteAt_of_window_eq (reply_message h)
    (show k < 2 + 2 + icmpMsgSize by change k < 60; omega)
  change byteAt _ (38 + k) = byteAt _ (38 + k) at hbyte
  rwa [show 38 + k = ethhdr + (24 + k) by change _ = 14 + _; omega] at hbyte

/-- The lengths, the header and the code that an answer shows the request and the buffer to have. -/
theorem layout_of_reply (hrequest : EchoRequest (List.ofFn recvData))
    (h : createIcmpReqReply b recvData = some sent) (hreply : EchoReplyTo (List.ofFn recvData) sent) :
    n = ethhdr + iphdr + icmphdr + icmpMsgSize ∧ headerLength (List.ofFn recvData) = iphdr ∧
      b codeIndex = 0 := by
  obtain ⟨r, hfill, hlength, hfield⟩ := createIcmpReqReply_fill h
  have hheader : headerLength (List.ofFn recvData) = iphdr := by
    by_contra hne
    have htype := type_reply h (lt_of_le_of_ne hrequest.header (Ne.symm hne))
    rw [hreply.type, hrequest.type] at htype
    exact absurd htype (by decide)
  refine ⟨?_, hheader, ?_⟩
  · -- The reply has 98 bytes and gives the length of the request.
    have hrequestLength := hrequest.length
    rw [List.length_ofFn, ← totalLength_reply h, ← hreply.length, hlength] at hrequestLength
    exact hrequestLength
  · have hcode := hreply.code
    rw [messageStart, headerLength_reply h, hheader] at hcode
    rw [← code_reply h]
    exact hcode

/-- In the layout that the client assumes, the reply has the lengths of the request. -/
theorem lengths_of_layout (hrequest : EchoRequest (List.ofFn recvData))
    (h : createIcmpReqReply b recvData = some sent) (hsize : n = ethhdr + iphdr + icmphdr + icmpMsgSize)
    (hheader : headerLength (List.ofFn recvData) = iphdr) :
    headerLength sent = iphdr ∧ totalLength sent = iphdr + icmphdr + icmpMsgSize ∧
      totalLength (List.ofFn recvData) = iphdr + icmphdr + icmpMsgSize := by
  have htotal : totalLength (List.ofFn recvData) = iphdr + icmphdr + icmpMsgSize := by
    have hrequestLength := hrequest.length
    rw [List.length_ofFn] at hrequestLength
    omega
  exact ⟨(headerLength_reply h).trans hheader, (totalLength_reply h).trans htotal, htotal⟩

/-- In that layout the reply is a packet with checksums that verify. -/
theorem icmpFrame_of_layout (hrequest : EchoRequest (List.ofFn recvData))
    (h : createIcmpReqReply b recvData = some sent) (hsize : n = ethhdr + iphdr + icmphdr + icmpMsgSize)
    (hheader : headerLength (List.ofFn recvData) = iphdr) : IcmpFrame sent := by
  obtain ⟨r, hfill, hlength, hfield⟩ := createIcmpReqReply_fill h
  obtain ⟨hreplyHeader, hreplyTotal, _⟩ := lengths_of_layout hrequest h hsize hheader
  have hproto : window sent hProto 2 = window (List.ofFn (htons ethPIp)) 0 2 :=
    (hfield (by decide)).trans
      (fill_copied (icmpReplyFields_writes recvData) hfill 2 rfl (by decide) (by decide))
  constructor
  case ethertype =>
    rw [shortAt, byteAt_of_window_eq hproto (show 0 < 2 by decide),
      byteAt_of_window_eq hproto (show 1 < 2 by decide)]
    rfl
  case version =>
    rw [byteAt_of_window_eq (reply_header h) (show 0 < 10 by decide)]
    exact hrequest.version
  case header => exact hreplyHeader.ge
  case message =>
    rw [hreplyHeader, hreplyTotal]
    decide
  case length =>
    rw [hlength, hreplyTotal]
    omega
  case protocol =>
    rw [byteAt_of_window_eq (reply_header h) (show 9 < 10 by decide)]
    exact hrequest.protocol
  case headerSum =>
    rw [hreplyHeader, hfield (by decide)]
    exact icmpReplyFields_header hfill
  case messageSum =>
    rw [messageStart, hreplyHeader, hreplyTotal, hfield (by decide)]
    exact icmpReplyFields_message hfill

/-- A request of the layout that the client assumes is answered. -/
theorem reply_of_layout (hrequest : EchoRequest (List.ofFn recvData))
    (h : createIcmpReqReply b recvData = some sent) (hsize : n = ethhdr + iphdr + icmphdr + icmpMsgSize)
    (hheader : headerLength (List.ofFn recvData) = iphdr) (hcode : b codeIndex = 0) :
    EchoReplyTo (List.ofFn recvData) sent := by
  obtain ⟨r, hfill, hlength, hfield⟩ := createIcmpReqReply_fill h
  obtain ⟨hreplyHeader, hreplyTotal, htotal⟩ := lengths_of_layout hrequest h hsize hheader
  have hecho := icmpReplyFields_echo hfill
  have hstart : messageStart (List.ofFn recvData) = icmpType := by rw [messageStart, hheader]
  have hreplyStart : messageStart sent = icmpType := by rw [messageStart, hreplyHeader]
  have htype : window sent icmpType 1 = window (List.ofFn fun _ : Fin 1 => icmpEchoreply) 0 1 :=
    (hfield (by decide)).trans
      (fill_copied (icmpReplyFields_writes recvData) hfill 7 rfl (by decide) (by decide))
  constructor
  case toIcmpFrame => exact icmpFrame_of_layout hrequest h hsize hheader
  case type =>
    rw [hreplyStart]
    exact byteAt_of_window_eq htype (show 0 < 1 by decide)
  case code =>
    rw [hreplyStart]
    exact (code_reply h).trans hcode
  case id =>
    rw [hreplyStart, hstart, hfield (by decide)]
    exact hecho.id
  case sequence =>
    rw [hreplyStart, hstart, hfield (by decide)]
    exact hecho.sequence
  case payload =>
    rw [payload, payload, hreplyStart, hstart, hreplyHeader, hheader, hreplyTotal, htotal,
      hfield (by decide)]
    exact hecho.msg
  case dest => exact (hfield (by decide)).trans hecho.dest
  case source => exact (hfield (by decide)).trans hecho.source
  case saddr => exact (hfield (by decide)).trans hecho.saddr
  case daddr => exact (hfield (by decide)).trans hecho.daddr

end Replies

/-- An IP packet that is not too long is answered as it is. -/
theorem handleRecvData_of_ip (ipPacket replyBuffer : Bytes ethermtu) {recvDataSize : BitVec 32}
    {recvData : Bytes recvDataSize.toNat} (hproto : etherProto recvData = some ethPIp)
    (hheader : ethhdr ≤ recvDataSize.toNat) (hfits : recvDataSize.toNat ≤ ethhdr + ethermtu) :
    handleRecvData ipPacket replyBuffer recvDataSize recvData =
      (createIcmpReqReply replyBuffer recvData).map some := by
  have hsize : ipPacketSize recvDataSize ≤ ethermtu := by
    rw [ipPacketSize_eq hheader]
    omega
  have hcopy : (copy ipPacket 0 recvData ethhdr (ipPacketSize recvDataSize)).isSome = true :=
    isSome_copy (by omega) (by rw [ipPacketSize_eq hheader]; omega)
  obtain ⟨packet, hpacket⟩ := Option.isSome_iff_exists.mp hcopy
  obtain ⟨printed, hprint⟩ := Option.isSome_iff_exists.mp (printIpPacket_isSome packet hsize)
  have hkind : ethPIp ≠ ethPArp := by decide
  simp only [handleRecvData, hproto, Option.bind_eq_bind, Option.bind_some, if_neg hkind, if_true,
    hpacket, hprint, Option.map_eq_bind]
  rfl

/-- An echo request is answered exactly when it has 98 bytes, no options in its IP header, and the code
in the reply buffer is zero. -/
theorem handleRecvData_echo_iff (ipPacket replyBuffer : Bytes ethermtu) (recvDataSize : BitVec 32)
    (recvData : Bytes recvDataSize.toNat) (hrequest : EchoRequest (List.ofFn recvData)) :
    (∃ sent, handleRecvData ipPacket replyBuffer recvDataSize recvData = some (some sent) ∧
      EchoReplyTo (List.ofFn recvData) sent) ↔
      recvDataSize.toNat = ethhdr + iphdr + icmphdr + icmpMsgSize ∧
        headerLength (List.ofFn recvData) = iphdr ∧ replyBuffer codeIndex = 0 := by
  have hlength := hrequest.length
  have hshort := hrequest.short
  have hmessage := hrequest.message
  rw [List.length_ofFn] at hlength hshort
  have hproto : etherProto recvData = some ethPIp := by
    rw [etherProto_eq recvData (by omega), hrequest.ethertype]
  rw [handleRecvData_of_ip ipPacket replyBuffer hproto (by omega) (by omega)]
  simp only [Option.map_eq_some_iff, Option.some.injEq, exists_eq_right]
  refine ⟨fun ⟨sent, hsent, hreply⟩ => ?_, fun ⟨hsize, hheader, hcode⟩ => ?_⟩
  · exact layout_of_reply hrequest hsent hreply
  · have hisSome := (createIcmpReqReply_isSome_iff replyBuffer recvData).mpr hsize.ge
    obtain ⟨sent, hsent⟩ := Option.isSome_iff_exists.mp hisSome
    exact ⟨sent, hsent, reply_of_layout hrequest hsent hsize hheader hcode⟩

/-- An echo request from and to the address zero, with a payload of zeros. -/
def zeroRequest (size : BitVec 32) (total check : Byte) : Bytes size.toNat := fun i =>
  ([(12, 0x08), (14, 0x45), (17, total), (22, 0x40), (23, 0x01), (24, 0x7A), (25, check), (34, 0x08),
    (36, 0xF7), (37, 0xFF)].lookup i.val).getD 0

/-- The request that the demonstration sends is answered. -/
theorem zeroRequest_answered :
    EchoRequest (List.ofFn (zeroRequest 98 84 0xAA)) ∧
    ∃ sent, handleRecvData (fun _ => 0) (fun _ => 0) 98 (zeroRequest 98 84 0xAA) = some (some sent) ∧
      EchoReplyTo (List.ofFn (zeroRequest 98 84 0xAA)) sent := by
  have hrequest : EchoRequest (List.ofFn (zeroRequest 98 84 0xAA)) :=
    ⟨⟨by decide, by decide, by decide, by decide, by decide, by decide, by decide, by decide +kernel⟩,
      by decide, by decide, by decide⟩
  exact ⟨hrequest, (handleRecvData_echo_iff _ _ _ _ hrequest).mpr ⟨by decide, by decide, by decide⟩⟩

/-- The answer to a request with two more bytes of payload is two bytes shorter than it says. -/
theorem zeroRequest_cut :
    EchoRequest (List.ofFn (zeroRequest 100 86 0xA8)) ∧
    ¬ ∃ sent, handleRecvData (fun _ => 0) (fun _ => 0) 100 (zeroRequest 100 86 0xA8) = some (some sent) ∧
      EchoReplyTo (List.ofFn (zeroRequest 100 86 0xA8)) sent := by
  refine ⟨⟨⟨by decide, by decide, by decide, by decide, by decide, by decide, by decide,
    by decide +kernel⟩, by decide, by decide, by decide⟩, fun ⟨sent, hsent, hreply⟩ => ?_⟩
  have hlengths : (handleRecvData (fun _ => 0) (fun _ => 0) 100 (zeroRequest 100 86 0xA8)).map
      (Option.map fun sent => (sent.length, totalLength sent)) = some (some (98, 86)) := by
    decide +kernel
  simp only [hsent, Option.map_some, Option.some.injEq, Prod.mk.injEq] at hlengths
  have hlength := hreply.length
  rw [hlengths.1, hlengths.2] at hlength
  exact absurd hlength (by decide)

end CamkesVm.Ping
