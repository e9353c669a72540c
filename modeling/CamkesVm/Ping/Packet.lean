import CamkesVm.Machine.Buffer

/-!
# The packets of the ping client

The model of `ping_client.c` up to `handle_recv_data`. A received packet is an array of exactly the
bytes that the guest gave, and the local buffers are arrays of `ETHERMTU` bytes with any contents.
Every access is checked, so a packet that makes the code leave an array has no result.

The structures of the packet headers are the offsets of their fields. The client runs on a
little-endian machine: `htons` swaps the two bytes of a short, and the checksum adds shorts as they
lie in memory.
-/

namespace CamkesVm.Ping

open CamkesVm.Machine

/-- The size of the local packet buffers. -/
abbrev ethermtu : ℕ := 1500

/-- The length of a hardware address and of an IPv4 address. -/
abbrev ethAlen : ℕ := 6
abbrev ipv4Length : ℕ := 4

/-- The sizes of the headers. -/
abbrev ethhdr : ℕ := 14
abbrev iphdr : ℕ := 20
abbrev icmphdr : ℕ := 8
abbrev etherArp : ℕ := 28

/-- The fields of an Ethernet header. -/
abbrev hDest : ℕ := 0
abbrev hSource : ℕ := 6
abbrev hProto : ℕ := 12

/-- The fields of an ARP packet, behind the Ethernet header. -/
abbrev arHrd : ℕ := ethhdr
abbrev arPro : ℕ := ethhdr + 2
abbrev arHln : ℕ := ethhdr + 4
abbrev arPln : ℕ := ethhdr + 5
abbrev arOp : ℕ := ethhdr + 6
abbrev arpSha : ℕ := ethhdr + 8
abbrev arpSpa : ℕ := ethhdr + 14
abbrev arpTha : ℕ := ethhdr + 18
abbrev arpTpa : ℕ := ethhdr + 24

/-- The fields of an IP header, behind the Ethernet header. -/
abbrev ipCheck : ℕ := ethhdr + 10
abbrev ipSaddr : ℕ := ethhdr + 12
abbrev ipDaddr : ℕ := ethhdr + 16

/-- The fields of an ICMP message, behind both headers. -/
abbrev icmpType : ℕ := ethhdr + iphdr
abbrev icmpCode : ℕ := ethhdr + iphdr + 1
abbrev icmpChecksum : ℕ := ethhdr + iphdr + 2
abbrev icmpId : ℕ := ethhdr + iphdr + 4
abbrev icmpSequence : ℕ := ethhdr + iphdr + 6
abbrev icmpMsg : ℕ := ethhdr + iphdr + icmphdr

/-- The bytes behind the ICMP header that are echoed. -/
abbrev icmpMsgSize : ℕ := 64 - icmphdr

/-- The protocols of the Ethernet header. -/
def ethPIp : BitVec 16 := 0x0800
def ethPArp : BitVec 16 := 0x0806

/-- The constants of an ARP reply, and the type of an ICMP echo reply. -/
def arphrdEther : BitVec 16 := 1
def arpopReply : BitVec 16 := 2
def icmpEchoreply : Byte := 0

/-- A short as `htons` puts it into memory. -/
def htons (value : BitVec 16) : Bytes 2 := ![(value >>> 8).setWidth 8, value.setWidth 8]

/-- A short in network order, read from memory. -/
def ntohs (bytes : Bytes 2) : BitVec 16 :=
  (List.ofFn bytes).foldl (fun value byte => value <<< 8 ||| byte.setWidth 16) 0

/-- A short as it lies in memory. -/
def shortBytes (value : BitVec 16) : Bytes 2 := ![value.setWidth 8, (value >>> 8).setWidth 8]

/-- The one's complement checksum. The odd byte of an odd length is added as it is. -/
def oneCompChecksum {length : ℕ} (data : Bytes length) : BitVec 16 :=
  let words := (List.finRange (length / 2)).foldl (fun (sum : BitVec 32) (k : Fin (length / 2)) =>
    sum + ((data ⟨2 * k, by omega⟩).setWidth 32 + (data ⟨2 * k + 1, by omega⟩).setWidth 32 <<< 8)) 0
  let sum := if h : length % 2 = 1 then words + (data ⟨length - 1, by omega⟩).setWidth 32 else words
  let sum := (sum >>> 16) + (sum &&& 0xFFFF)
  let sum := sum + (sum >>> 16)
  (~~~sum).setWidth 16

/-- What `print_ip_packet` reads: all bytes of the packet, and the fields that it prints. -/
structure PrintedPacket where
  contents : List Byte
  fields : List (List Byte)

/-- The fields that `print_ip_packet` prints, as offsets and lengths in an IP packet: the version, the
protocol and the addresses of the IP header, the type, the id and the sequence of the message. -/
def printedFields : List (ℕ × ℕ) :=
  [(0, 1), (9, 1), (12, ipv4Length), (16, ipv4Length), (iphdr, 1), (iphdr + 4, 2), (iphdr + 6, 2)]

/-- Print an IP packet. -/
def printIpPacket (ipBuf : Bytes ethermtu) (ipLength : ℕ) : Option PrintedPacket := do
  let contents ← slice ipBuf 0 ipLength
  let fields ← printedFields.mapM fun field => (slice ipBuf field.1 field.2).map List.ofFn
  some ⟨List.ofFn contents, fields⟩

/-- The bytes that are handed to the send queue. -/
def sendOutgoingPacket (outgoingData : Bytes ethermtu) (outgoingDataSize : ℕ) : Option (List Byte) :=
  (slice outgoingData 0 outgoingDataSize).map List.ofFn

/-- Exchange the addresses of the IP header. -/
def swapAddresses (reply : Bytes ethermtu) : Option (Bytes ethermtu) := do
  let saddr ← slice reply ipSaddr ipv4Length
  let reply ← copy reply ipSaddr reply ipDaddr ipv4Length
  copy reply ipDaddr saddr 0 ipv4Length

/-- Assign a checksum field the checksum of the `length` bytes from `start` on. -/
def setChecksum (field start length : ℕ) (reply : Bytes ethermtu) : Option (Bytes ethermtu) :=
  (slice reply start length).bind fun data =>
    copy reply field (shortBytes (oneCompChecksum data)) 0 2

section Replies

variable {n : ℕ} (replyBuffer : Bytes ethermtu) (recvData : Bytes n)

/-- The assignments of an ARP reply. The last byte of the answered address is the requester's plus
two. -/
def arpReplyFields : List (Bytes ethermtu → Option (Bytes ethermtu)) :=
  [fun reply => copy reply hDest recvData arpSha ethAlen,
    fun reply => copy reply hProto (htons ethPArp) 0 2,
    fun reply => copy reply arpTha recvData arpSha ethAlen,
    fun reply => copy reply arpSha recvData arpSha ethAlen,
    fun reply => (slice reply (arpSha + 5) 1).bind fun last =>
      copy reply (arpSha + 5) (fun i => last i + 2) 0 1,
    fun reply => copy reply hSource reply arpSha ethAlen,
    fun reply => copy reply arpSpa recvData arpTpa ipv4Length,
    fun reply => copy reply arpTpa recvData arpSpa ipv4Length,
    fun reply => copy reply arHrd (htons arphrdEther) 0 2,
    fun reply => copy reply arPro (htons ethPIp) 0 2,
    fun reply => copy reply arOp (htons arpopReply) 0 2,
    fun reply => copy reply arHln (fun _ : Fin 1 => BitVec.ofNat 8 ethAlen) 0 1,
    fun reply => copy reply arPln (fun _ : Fin 1 => BitVec.ofNat 8 ipv4Length) 0 1]

/-- Reply to an ARP request. -/
def createArpReqReply : Option (List Byte) := do
  let reply ← fill (arpReplyFields recvData) replyBuffer
  sendOutgoingPacket reply (ethhdr + etherArp)

/-- The assignments of a reply to an ICMP echo request. -/
def icmpReplyFields : List (Bytes ethermtu → Option (Bytes ethermtu)) :=
  [fun reply => copy reply hDest recvData hSource ethAlen,
    fun reply => copy reply hSource recvData hDest ethAlen,
    fun reply => copy reply hProto (htons ethPIp) 0 2,
    fun reply => copy reply ethhdr recvData ethhdr iphdr,
    swapAddresses,
    fun reply => copy reply icmpSequence recvData icmpSequence 2,
    fun reply => copy reply icmpId recvData icmpId 2,
    fun reply => copy reply icmpType (fun _ : Fin 1 => icmpEchoreply) 0 1,
    fun reply => copy reply icmpMsg recvData icmpMsg icmpMsgSize,
    fun reply => copy reply icmpChecksum (shortBytes 0) 0 2,
    setChecksum icmpChecksum icmpType (icmphdr + icmpMsgSize),
    fun reply => copy reply ipCheck (shortBytes 0) 0 2,
    setChecksum ipCheck ethhdr iphdr]

/-- Reply to an ICMP echo request. -/
def createIcmpReqReply : Option (List Byte) := do
  let reply ← fill (icmpReplyFields recvData) replyBuffer
  sendOutgoingPacket reply (ethhdr + iphdr + icmphdr + icmpMsgSize)

/-- The protocol in the Ethernet header. -/
def etherProto : Option (BitVec 16) := (slice recvData hProto 2).map ntohs

end Replies

/-- The length of the IP packet behind the Ethernet header, as an unsigned difference. -/
def ipPacketSize (recvDataSize : BitVec 32) : ℕ :=
  (recvDataSize.setWidth 64 - BitVec.ofNat 64 ethhdr).toNat

/-- Handle a received packet, with the contents of the local buffers and the bytes that are sent in
reply. -/
def handleRecvData (ipPacket replyBuffer : Bytes ethermtu) (recvDataSize : BitVec 32)
    (recvData : Bytes recvDataSize.toNat) : Option (Option (List Byte)) := do
  let proto ← etherProto recvData
  if proto = ethPArp then
    let sent ← createArpReqReply replyBuffer recvData
    some (some sent)
  else if proto = ethPIp then
    let ipPacket ← copy ipPacket 0 recvData ethhdr (ipPacketSize recvDataSize)
    let _ ← printIpPacket ipPacket (ipPacketSize recvDataSize)
    let sent ← createIcmpReqReply replyBuffer recvData
    some (some sent)
  else some none

end CamkesVm.Ping
