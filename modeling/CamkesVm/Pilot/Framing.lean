import CamkesVm.Commsec.AesDelivery
import CamkesVm.Machine.Packets
import CamkesVm.Pilot.Relay

/-!
# Framing of the packages from the ground station

`check_packet` collects bytes in a buffer until the frame delimiter comes behind at least one other byte,
and then hands the buffer to `try_decrypt`, which looks for a commsec package behind a header of two
bytes. The delimiter is not escaped in the packages, and the length of the buffer is not checked. So a
package is recovered only if the delimiter does not occur in it, and a stream without delimiters runs
over the buffer.

The buffer is followed as a flat memory, past its end as well, and a call answers with the length to
which it filled the buffer and with the result of `try_decrypt` if it was called.
-/

namespace CamkesVm.Pilot

open CamkesVm.Aeslib CamkesVm.Machine CamkesVm.Commsec

variable {gcm : Gcm}

/-- The key of the packages from the ground stations. -/
def baseToUavKey : List Byte := [15, 14, 13, 12, 11, 10, 9, 8, 7, 6, 5, 4, 3, 2, 1, 0]

/-- The key of the packages to the ground stations. -/
def uavToBaseKey : List Byte := [0, 1, 2, 3, 4, 5, 6, 7, 8, 9, 10, 11, 12, 13, 14, 15]

/-- The salt of the packages from the ground stations. -/
def b2uSalt : BitVec 32 := 9219834

/-- The salt of the packages to the ground stations. -/
def u2bSalt : BitVec 32 := 284920

/-- The function `init_decrypt` on `decrypt_state`. -/
def initDecrypt (decryptState : CommsecCtx gcm) : CommsecCtx gcm :=
  securePkgInit decryptState 0 b2uSalt baseToUavKey u2bSalt uavToBaseKey

/-- The byte `0x7e` around a frame. -/
def frameDelimiter : Byte := 0x7e

/-- The constant `COMMSEC_PAYLOAD_LEN`: the length of the package of a MAVLink message. -/
def commsecPayloadLen : ℤ := securePkgSizeOfPackage 80

/-- The constant `CHK_BUF_SIZE`. -/
def chkBufSize : ℕ := 256

/-- The buffer `check_buf`, the counter `err_cnt` and the context `decrypt_state`. -/
structure CheckState (gcm : Gcm) where
  checkBuf : Packet
  errCnt : BitVec 32
  decryptState : CommsecCtx gcm

/-- What a call of `check_packet` does: the length after the byte is stored, and the result of
`try_decrypt`. -/
structure CheckEvent where
  len : BitVec 32
  decrypted : Option Bool
  deriving DecidableEq

/-- The function `try_decrypt`. -/
def tryDecrypt (decryptState : CommsecCtx gcm) (buf : ℕ → Byte) (msgsize : ℤ) : Bool × CommsecCtx gcm :=
  if msgsize < 2 + commsecPayloadLen then (false, decryptState)
  else if buf 0 ≠ frameDelimiter then (false, decryptState)
  else if buf 1 ≠ 0 then (false, decryptState)
  else
    let r := securePkgDec decryptState (readRange buf 2 commsecPayloadLen.toNat)
    (decide (r.ret = .succeed), r.ctx)

/-- The function `check_packet` on `check_buf`. -/
def checkPacket (s : CheckState gcm) (c : Byte) : CheckEvent × CheckState gcm :=
  let pkt : Packet := ⟨writeRange s.checkBuf.data s.checkBuf.len.toNat [c], s.checkBuf.len + 1⟩
  if c = frameDelimiter ∧ 1 < pkt.len then
    let r := tryDecrypt s.decryptState pkt.data pkt.len.toInt
    (⟨pkt.len, some r.1⟩,
      { checkBuf := { pkt with len := 0 }
        errCnt := if r.1 then s.errCnt else s.errCnt + 1
        decryptState := r.2 })
  else (⟨pkt.len, none⟩, { s with checkBuf := pkt })

/-- The frame in which the ground station sends a package. -/
def frameBytes (pkg : List Byte) : List Byte := frameDelimiter :: 0 :: (pkg ++ [frameDelimiter])

/-- The number of successful calls of `try_decrypt`. -/
def recovered (events : List CheckEvent) : ℕ := events.countP (·.decrypted = some true)

/-- The packages recovered in two stretches add up. -/
theorem recovered_append (events later : List CheckEvent) :
    recovered (events ++ later) = recovered events + recovered later :=
  List.countP_append

/-- A call that does not succeed adds nothing. -/
theorem recovered_cons_of_ne {event : CheckEvent} (h : event.decrypted ≠ some true)
    (later : List CheckEvent) : recovered (event :: later) = recovered later :=
  List.countP_cons_of_neg (by simpa using h)

section Frames

/-- The function `try_decrypt` on the bytes it is given. -/
def openFrame (decryptState : CommsecCtx gcm) (frame : List Byte) : Bool × CommsecCtx gcm :=
  tryDecrypt decryptState (frame.getD · 0) frame.length

variable {ctx : CommsecCtx gcm} {frame : List Byte}

/-- Only the bytes up to the message size count. -/
theorem tryDecrypt_eq_openFrame {buf : ℕ → Byte} (h : readRange buf 0 frame.length = frame) :
    tryDecrypt ctx buf frame.length = openFrame ctx frame := by
  have hget : ∀ k < frame.length, buf k = frame.getD k 0 := by
    intro k hk
    have hbyte : (readRange buf 0 frame.length).getD k 0 = buf k := by
      simp [readRange, hk]
    rw [← hbyte, h]
  unfold openFrame tryDecrypt
  split
  · rfl
  · next hlong =>
    have hlen : 98 ≤ frame.length := by
      change ¬ (frame.length : ℤ) < 98 at hlong
      omega
    rw [hget 0 (by omega), hget 1 (by omega), readRange_congr]
    intro k hk
    change k < 96 at hk
    exact hget (2 + k) (by omega)

/-- A short frame is rejected. -/
theorem openFrame_short (h : frame.length < 98) : openFrame ctx frame = (false, ctx) := by
  unfold openFrame tryDecrypt
  rw [if_pos]
  change (frame.length : ℤ) < 98
  omega

/-- A frame that does not start with the delimiter is rejected. -/
theorem openFrame_header (h : frame.head? ≠ some frameDelimiter) :
    openFrame ctx frame = (false, ctx) := by
  have hfirst : frame.getD 0 0 ≠ frameDelimiter := by
    cases frame with
    | nil => decide
    | cons first rest =>
      intro heq
      exact h (congrArg some heq)
  unfold openFrame tryDecrypt
  rw [if_pos hfirst, ite_self]

/-- A package behind the header is decrypted, whatever follows it. -/
theorem openFrame_package {pkg : List Byte} (hlen : pkg.length = 96) (after : List Byte) :
    openFrame ctx (frameDelimiter :: 0 :: (pkg ++ after)) =
      (decide ((securePkgDec ctx pkg).ret = .succeed), (securePkgDec ctx pkg).ctx) := by
  have hpkg : readRange ((frameDelimiter :: 0 :: (pkg ++ after)).getD · 0) 2 commsecPayloadLen.toNat =
      pkg := by
    apply List.ext_getElem
    · rw [readRange_length, hlen]
      rfl
    · intro k hk hk'
      simp [readRange, Nat.add_comm 2 k, List.getElem?_append_left hk', hk']
  unfold openFrame tryDecrypt
  rw [if_neg, if_neg, if_neg, hpkg]
  · exact not_not_intro rfl
  · exact not_not_intro rfl
  · change ¬ ((frameDelimiter :: 0 :: (pkg ++ after)).length : ℤ) < 98
    simp only [List.length_cons, List.length_append]
    omega

end Frames

section Calls

variable {s t u : CheckState gcm} {c : Byte} {xs ys : List Byte} {n m : ℕ}

/-- The length of the packet fits in an `int` and does not wrap. -/
theorem len_add_one (hlen : s.checkBuf.pending.length < 2 ^ 31 - 1) :
    (s.checkBuf.len + 1).toNat = s.checkBuf.pending.length + 1 ∧
      (s.checkBuf.len + 1).toInt = ((s.checkBuf.pending.length + 1 : ℕ) : ℤ) := by
  rw [Packet.pending, readRange_length] at hlen ⊢
  have hsucc : (s.checkBuf.len + 1).toNat = s.checkBuf.len.toNat + 1 := by bv_omega
  refine ⟨hsucc, ?_⟩
  rw [BitVec.toInt_eq_toNat_of_lt (by omega), hsucc]

/-- The length that a call reaches. -/
theorem checkPacket_len (s : CheckState gcm) (c : Byte) :
    (checkPacket s c).1.len = s.checkBuf.len + 1 := by
  unfold checkPacket
  dsimp only
  split <;> rfl

/-- A byte that ends no packet is stored. -/
theorem checkPacket_stores (hlen : s.checkBuf.pending.length < 2 ^ 31 - 1)
    (hc : c = frameDelimiter → s.checkBuf.pending = []) :
    (checkPacket s c).1.decrypted = none ∧
      (checkPacket s c).2.checkBuf.pending = s.checkBuf.pending ++ [c] ∧
      (checkPacket s c).2.errCnt = s.errCnt ∧
      (checkPacket s c).2.decryptState = s.decryptState := by
  obtain ⟨hnat, _⟩ := len_add_one hlen
  have hopen : ¬ (c = frameDelimiter ∧ 1 < s.checkBuf.len + 1) := by
    rintro ⟨hdelim, hlong⟩
    have hlong : 1 < (s.checkBuf.len + 1).toNat := hlong
    rw [hnat, hc hdelim] at hlong
    exact absurd hlong (Nat.lt_irrefl 1)
  unfold checkPacket
  dsimp only
  rw [if_neg hopen]
  refine ⟨rfl, Packet.pending_write ?_ c, rfl, rfl⟩
  rw [hnat, Packet.pending, readRange_length]

/-- The delimiter behind other bytes ends a packet. -/
theorem checkPacket_ends (hlen : s.checkBuf.pending.length < 2 ^ 31 - 1)
    (hne : s.checkBuf.pending ≠ []) :
    let r := openFrame s.decryptState (s.checkBuf.pending ++ [frameDelimiter])
    (checkPacket s frameDelimiter).1.decrypted = some r.1 ∧
      (checkPacket s frameDelimiter).2.checkBuf.pending = [] ∧
      (checkPacket s frameDelimiter).2.errCnt = (if r.1 then s.errCnt else s.errCnt + 1) ∧
      (checkPacket s frameDelimiter).2.decryptState = r.2 := by
  obtain ⟨hnat, hint⟩ := len_add_one hlen
  have hends : frameDelimiter = frameDelimiter ∧ 1 < s.checkBuf.len + 1 := by
    refine ⟨rfl, ?_⟩
    change 1 < (s.checkBuf.len + 1).toNat
    rw [hnat]
    have hpos := List.length_pos_iff.mpr hne
    omega
  have hpending : Packet.pending
      ⟨writeRange s.checkBuf.data s.checkBuf.len.toNat [frameDelimiter], s.checkBuf.len + 1⟩ =
        s.checkBuf.pending ++ [frameDelimiter] := by
    apply Packet.pending_write
    rw [hnat, Packet.pending, readRange_length]
  have hopen : tryDecrypt s.decryptState
      (writeRange s.checkBuf.data s.checkBuf.len.toNat [frameDelimiter]) (s.checkBuf.len + 1).toInt =
        openFrame s.decryptState (s.checkBuf.pending ++ [frameDelimiter]) := by
    have hlength : (s.checkBuf.pending ++ [frameDelimiter]).length = (s.checkBuf.len + 1).toNat := by
      rw [List.length_append, hnat]
      rfl
    rw [hint, ← hnat, ← hlength]
    apply tryDecrypt_eq_openFrame
    rw [hlength]
    exact hpending
  unfold checkPacket
  dsimp only
  rw [if_pos hends, hopen]
  exact ⟨rfl, rfl, rfl, rfl⟩

/-- Feeding the bytes recovers a number of packages and leads to a state. -/
structure Feeds (s : CheckState gcm) (xs : List Byte) (n : ℕ) (t : CheckState gcm) : Prop where
  recovered_eq : recovered (outputs checkPacket s xs) = n
  final_eq : final checkPacket s xs = t

/-- A stretch of the stream feeds what its run recovers. -/
theorem feeds_all (s : CheckState gcm) (xs : List Byte) :
    Feeds s xs (recovered (outputs checkPacket s xs)) (final checkPacket s xs) := ⟨rfl, rfl⟩

/-- Two stretches that follow each other feed one after the other. -/
theorem Feeds.append (hfirst : Feeds s xs n t) (hnext : Feeds t ys m u) :
    Feeds s (xs ++ ys) (n + m) u := by
  constructor
  · rw [outputs_append, hfirst.final_eq, recovered_append, hfirst.recovered_eq, hnext.recovered_eq]
  · rw [final_append, hfirst.final_eq, hnext.final_eq]

/-- Bytes that end no packet are stored. -/
theorem feeds_stored (xs : List Byte) (hlen : s.checkBuf.pending.length + xs.length < 2 ^ 31)
    (hxs : frameDelimiter ∉ (s.checkBuf.pending ++ xs).tail) :
    ∃ t, Feeds s xs 0 t ∧ t.checkBuf.pending = s.checkBuf.pending ++ xs ∧ t.errCnt = s.errCnt ∧
      t.decryptState = s.decryptState := by
  induction xs generalizing s with
  | nil => exact ⟨s, ⟨rfl, rfl⟩, (List.append_nil _).symm, rfl, rfl⟩
  | cons c xs ih =>
    have hc : c = frameDelimiter → s.checkBuf.pending = [] := by
      intro hdelim
      by_contra hne
      apply hxs
      rw [List.tail_append_of_ne_nil hne, hdelim]
      exact List.mem_append_right _ List.mem_cons_self
    rw [List.length_cons] at hlen
    obtain ⟨hnone, hpending, herr, hctx⟩ := checkPacket_stores (by omega) hc
    have hmore : (checkPacket s c).2.checkBuf.pending ++ xs = s.checkBuf.pending ++ c :: xs := by
      rw [hpending, List.append_assoc]
      rfl
    obtain ⟨t, hfeeds, hpending', herr', hctx'⟩ := ih (s := (checkPacket s c).2)
      (by rw [hpending, List.length_append]; simp; omega) (by rwa [hmore])
    refine ⟨t, ⟨?_, hfeeds.final_eq⟩, ?_, herr'.trans herr, hctx'.trans hctx⟩
    · rw [outputs_cons, recovered_cons_of_ne (by simp [hnone]), hfeeds.recovered_eq]
    · rw [hpending', hmore]

/-- The delimiter that ends a packet. -/
theorem feeds_ends (hlen : s.checkBuf.pending.length < 2 ^ 31 - 1) (hne : s.checkBuf.pending ≠ []) :
    let r := openFrame s.decryptState (s.checkBuf.pending ++ [frameDelimiter])
    ∃ t, Feeds s [frameDelimiter] (if r.1 then 1 else 0) t ∧ t.checkBuf.pending = [] ∧
      t.errCnt = (if r.1 then s.errCnt else s.errCnt + 1) ∧ t.decryptState = r.2 := by
  obtain ⟨hevent, hrest⟩ := checkPacket_ends hlen hne
  refine ⟨_, ⟨?_, rfl⟩, hrest⟩
  rw [outputs_cons, outputs_nil, recovered, List.countP_singleton, hevent]
  simp

/-- Bytes too few for a frame, or just enough but with a wrong first byte, recover nothing. -/
theorem recovered_eq_zero (hlen : s.checkBuf.pending.length + xs.length ≤ 98)
    (hhead : s.checkBuf.pending.length + xs.length = 98 →
      (s.checkBuf.pending ++ xs).head? ≠ some frameDelimiter) :
    recovered (outputs checkPacket s xs) = 0 := by
  induction xs generalizing s with
  | nil => rfl
  | cons c xs ih =>
    rw [List.length_cons] at hlen hhead
    rw [outputs_cons]
    by_cases hc : c = frameDelimiter → s.checkBuf.pending = []
    · obtain ⟨hnone, hpending, _⟩ := checkPacket_stores (by omega) hc
      rw [recovered_cons_of_ne (by simp [hnone])]
      apply ih
      · rw [hpending, List.length_append, List.length_singleton]
        omega
      · rw [hpending, List.length_append, List.length_singleton, List.append_assoc]
        intro h
        exact hhead (by omega)
    · obtain ⟨rfl, hne⟩ := Classical.not_imp.mp hc
      obtain ⟨hevent, hpending, _⟩ := checkPacket_ends (s := s) (by omega) hne
      have hpos := List.length_pos_iff.mpr hne
      have hfails : (openFrame s.decryptState (s.checkBuf.pending ++ [frameDelimiter])).1 = false := by
        -- The packet is shorter than a frame, unless all the bytes are in it.
        by_cases hshort : s.checkBuf.pending.length + 1 < 98
        · rw [openFrame_short (by rwa [List.length_append])]
        · rw [openFrame_header]
          have hfirst := hhead (by omega)
          rwa [List.head?_append_of_ne_nil _ hne] at hfirst ⊢
      rw [recovered_cons_of_ne (by simp [hevent, hfails])]
      apply ih
      · rw [hpending, List.length_nil]
        omega
      · rw [hpending, List.length_nil]
        intro h
        omega

/-- Between two frames, nothing is pending or a delimiter that was taken for the start of a packet. -/
def Between (s : CheckState gcm) : Prop :=
  s.checkBuf.pending = [] ∨ s.checkBuf.pending = [frameDelimiter]

/-- The buffer never holds more than was fed. -/
theorem length_pending_final (s : CheckState gcm) (xs : List Byte) :
    (final checkPacket s xs).checkBuf.pending.length ≤ s.checkBuf.pending.length + xs.length := by
  induction xs generalizing s with
  | nil => exact Nat.le_refl _
  | cons c xs ih =>
    have hstep : (checkPacket s c).2.checkBuf.pending.length ≤ s.checkBuf.pending.length + 1 := by
      simp only [Packet.pending, readRange_length]
      unfold checkPacket
      dsimp only
      split
      · exact Nat.zero_le _
      · rw [BitVec.toNat_add]
        exact Nat.mod_le _ _
    have hrest := ih (checkPacket s c).2
    rw [final_cons, List.length_cons]
    omega

/-- A delimiter at the end of the bytes leaves the state between two frames. -/
theorem between_final (hlen : s.checkBuf.pending.length + xs.length < 2 ^ 31 - 1) :
    Between (final checkPacket s (xs ++ [frameDelimiter])) := by
  rw [final_append]
  have hle := length_pending_final s xs
  generalize final checkPacket s xs = t at hle
  by_cases hempty : t.checkBuf.pending = []
  · obtain ⟨_, hpending, _⟩ := checkPacket_stores (c := frameDelimiter) (by omega) fun _ => hempty
    rw [hempty] at hpending
    exact .inr hpending
  · obtain ⟨_, hpending, _⟩ := checkPacket_ends (by omega) hempty
    exact .inl hpending

end Calls

section Packages

variable {s : CheckState gcm} {pkg body : List Byte} {pkgs : List (List Byte)}

/-- A header and bytes up to the next delimiter are one packet. -/
theorem feeds_packet (hempty : s.checkBuf.pending = []) (hlen : body.length < 2 ^ 31 - 4)
    (hbody : frameDelimiter ∉ body) :
    let r := openFrame s.decryptState (frameDelimiter :: 0 :: (body ++ [frameDelimiter]))
    ∃ t, Feeds s (frameBytes body) (if r.1 then 1 else 0) t ∧ t.checkBuf.pending = [] ∧
      t.errCnt = (if r.1 then s.errCnt else s.errCnt + 1) ∧ t.decryptState = r.2 := by
  have hzero : frameDelimiter ∉ 0 :: body := by
    rw [List.mem_cons]
    rintro (hzero | hmem)
    · exact absurd hzero (by decide)
    · exact hbody hmem
  obtain ⟨t, hstored, hpending, herr, hctx⟩ := feeds_stored (s := s)
    (frameDelimiter :: 0 :: body) (by rw [hempty]; simp; omega) (by rwa [hempty])
  rw [hempty, List.nil_append] at hpending
  obtain ⟨u, hends, hrest⟩ := feeds_ends (s := t) (by rw [hpending]; simp; omega) (by simp [hpending])
  rw [hpending, hctx, herr] at hrest
  rw [hpending, hctx] at hends
  exact ⟨u, by simpa [frameBytes] using hstored.append hends, hrest⟩

/-- A package in which the delimiter is at most the last byte is handed to the decryption. -/
theorem feeds_package (hempty : s.checkBuf.pending = []) (hlen : pkg.length = 96)
    (hpkg : frameDelimiter ∉ pkg.dropLast) :
    let r := securePkgDec s.decryptState pkg
    ∃ t, Feeds s (frameBytes pkg) (if r.ret = .succeed then 1 else 0) t ∧
      t.checkBuf.pending = (if frameDelimiter ∈ pkg then [frameDelimiter] else []) ∧
      t.errCnt = (if r.ret = .succeed then s.errCnt else s.errCnt + 1) ∧ t.decryptState = r.ctx := by
  by_cases hmem : frameDelimiter ∈ pkg
  · -- The last byte ends the packet, and the delimiter behind it starts another one.
    have hne : pkg ≠ [] := List.ne_nil_of_mem hmem
    have hlast : pkg = pkg.dropLast ++ [frameDelimiter] := by
      rw [← List.dropLast_concat_getLast hne, List.mem_append, List.mem_singleton] at hmem
      obtain hmem | hlast := hmem
      · exact absurd hmem hpkg
      · rw [hlast, List.dropLast_concat_getLast]
    obtain ⟨t, hpacket, hpending, herr, hctx⟩ := feeds_packet hempty (by simp [hlen]) hpkg
    obtain ⟨u, hstored, hpending', herr', hctx'⟩ := feeds_stored (s := t) [frameDelimiter]
      (by simp [hpending]) (by simp [hpending])
    have hopen : openFrame s.decryptState (frameDelimiter :: 0 :: pkg) =
        (decide ((securePkgDec s.decryptState pkg).ret = .succeed),
          (securePkgDec s.decryptState pkg).ctx) := by
      rw [← openFrame_package hlen [], List.append_nil]
    rw [← hlast, hopen] at hpacket herr hctx
    refine ⟨u, ?_, ?_, ?_, ?_⟩
    · have hbytes : frameBytes pkg = frameBytes pkg.dropLast ++ [frameDelimiter] := by
        unfold frameBytes
        rw [← hlast]
        rfl
      rw [hbytes]
      simpa using hpacket.append hstored
    · rw [hpending', hpending, if_pos hmem]
      rfl
    · simpa [herr'] using herr
    · rw [hctx', hctx]
  · obtain ⟨t, hpacket, hpending, herr, hctx⟩ := feeds_packet hempty (by omega) hmem
    rw [openFrame_package hlen] at hpacket herr hctx
    refine ⟨t, ?_, ?_, ?_, hctx⟩
    · simpa using hpacket
    · rw [hpending, if_neg hmem]
    · simpa using herr

/-- A package with the delimiter before its last byte is not recovered. -/
theorem recovered_broken (hempty : s.checkBuf.pending = []) (hlen : pkg.length = 96)
    (hpkg : frameDelimiter ∈ pkg.dropLast) : recovered (outputs checkPacket s (frameBytes pkg)) = 0 := by
  obtain ⟨body, more, hdrop, hbody⟩ := List.eq_append_cons_of_mem hpkg
  have hlength : body.length + more.length + 2 = 96 := by
    have h := congrArg List.length hdrop
    rw [List.length_dropLast, hlen, List.length_append, List.length_cons] at h
    omega
  obtain ⟨last, hpkg⟩ : ∃ last, pkg = body ++ frameDelimiter :: (more ++ [last]) := by
    have hne : pkg ≠ [] := List.ne_nil_of_length_pos (by omega)
    refine ⟨pkg.getLast hne, ?_⟩
    rw [← List.cons_append, ← List.append_assoc, ← hdrop, List.dropLast_concat_getLast]
  obtain ⟨t, hpacket, hpending, _⟩ := feeds_packet hempty (by omega) hbody
  rw [openFrame_short (by simp; omega)] at hpacket
  have hbytes : frameBytes pkg = frameBytes body ++ (more ++ [last, frameDelimiter]) := by
    simp [frameBytes, hpkg]
  have hrest : recovered (outputs checkPacket t (more ++ [last, frameDelimiter])) = 0 :=
    recovered_eq_zero (by simp [hpending]; omega) (by simp [hpending]; omega)
  rw [hbytes]
  exact (hpacket.append ⟨hrest, rfl⟩).recovered_eq

/-- A package behind a delimiter that was taken for the start of a packet is not recovered. -/
theorem recovered_misaligned (hdelim : s.checkBuf.pending = [frameDelimiter]) (hlen : pkg.length = 96) :
    recovered (outputs checkPacket s (frameBytes pkg)) = 0 := by
  obtain ⟨t, hends, hpending, _⟩ := feeds_ends (s := s) (by simp [hdelim]) (by simp [hdelim])
  rw [hdelim, openFrame_short (by decide)] at hends
  have hrest : recovered (outputs checkPacket t (0 :: (pkg ++ [frameDelimiter]))) = 0 :=
    recovered_eq_zero (by simp [hpending, hlen]) (by
      intro _ hhead
      rw [hpending] at hhead
      exact absurd (Option.some.inj hhead) (by decide))
  exact (hends.append ⟨hrest, rfl⟩).recovered_eq

/-- A frame recovers at most one package, and leaves the state between two frames. -/
theorem recovered_frame_le (hs : Between s) (hlen : pkg.length = 96) :
    recovered (outputs checkPacket s (frameBytes pkg)) ≤ 1 ∧
      Between (final checkPacket s (frameBytes pkg)) := by
  constructor
  · obtain hempty | hdelim := hs
    · by_cases hbroken : frameDelimiter ∈ pkg.dropLast
      · rw [recovered_broken hempty hlen hbroken]
        exact Nat.zero_le 1
      · obtain ⟨t, hfeeds, _⟩ := feeds_package hempty hlen hbroken
        rw [hfeeds.recovered_eq]
        split <;> decide
    · rw [recovered_misaligned hdelim hlen]
      exact Nat.zero_le 1
  · have hpending : s.checkBuf.pending.length ≤ 1 := by
      obtain hempty | hdelim := hs
      · simp [hempty]
      · simp [hdelim]
    have hbytes : frameBytes pkg = (frameDelimiter :: 0 :: pkg) ++ [frameDelimiter] := rfl
    rw [hbytes]
    exact between_final (by simp; omega)

/-- The frames of some packages recover at most as many. -/
theorem recovered_frames_le (hs : Between s) (hlen : ∀ pkg ∈ pkgs, pkg.length = 96) :
    recovered (outputs checkPacket s (pkgs.flatMap frameBytes)) ≤ pkgs.length := by
  induction pkgs generalizing s with
  | nil => exact Nat.le_refl 0
  | cons pkg pkgs ih =>
    obtain ⟨hpkg, hpkgs⟩ := List.forall_mem_cons.mp hlen
    obtain ⟨hone, hbetween⟩ := recovered_frame_le hs hpkg
    have hrest := ih hbetween hpkgs
    rw [List.flatMap_cons, outputs_append, recovered_append, List.length_cons]
    omega

/-- A frame that recovers nothing cannot be made up for by later ones. -/
theorem recovered_frames_lt (hs : Between s) (hpkg : pkg.length = 96)
    (hlen : ∀ pkg ∈ pkgs, pkg.length = 96)
    (hnone : recovered (outputs checkPacket s (frameBytes pkg)) = 0) :
    recovered (outputs checkPacket s ((pkg :: pkgs).flatMap frameBytes)) < (pkg :: pkgs).length := by
  have hrest := recovered_frames_le (recovered_frame_le hs hpkg).2 hlen
  rw [List.flatMap_cons, outputs_append, recovered_append, hnone, List.length_cons]
  omega

/-- The packages are accepted when they are decrypted in this order. -/
def Accepted (ctx : CommsecCtx gcm) (pkgs : List (List Byte)) : Prop :=
  ∀ answer ∈ outputs decStep ctx pkgs, answer.1 = .succeed

/-- The frames of the packages lead to one successful call of `try_decrypt` each, and to no error. -/
def Recovers (s : CheckState gcm) (pkgs : List (List Byte)) : Prop :=
  recovered (outputs checkPacket s (pkgs.flatMap frameBytes)) = pkgs.length ∧
    (final checkPacket s (pkgs.flatMap frameBytes)).errCnt = s.errCnt

/-- The delimiter occurs in none of the packages, except perhaps as the last byte of the last one. -/
def Unbroken (pkgs : List (List Byte)) : Prop :=
  (∀ pkg ∈ pkgs, frameDelimiter ∉ pkg.dropLast) ∧ ∀ pkg ∈ pkgs.dropLast, frameDelimiter ∉ pkg

/-- Packages are accepted if the first is and then the others are. -/
theorem accepted_cons {ctx : CommsecCtx gcm} :
    Accepted ctx (pkg :: pkgs) ↔
      (securePkgDec ctx pkg).ret = .succeed ∧ Accepted (securePkgDec ctx pkg).ctx pkgs :=
  List.forall_mem_cons

/-- Behind a package without the delimiter, the others count. -/
theorem unbroken_cons (hpkg : frameDelimiter ∉ pkg) : Unbroken (pkg :: pkgs) ↔ Unbroken pkgs := by
  have hdrop : frameDelimiter ∉ pkg.dropLast := fun hmem => hpkg (List.mem_of_mem_dropLast hmem)
  cases pkgs with
  | nil => simp [Unbroken, hdrop]
  | cons next rest => simp [Unbroken, hpkg, hdrop]

/-- Without packages there is nothing to recover. -/
theorem recovers_nil (s : CheckState gcm) : Recovers s [] := ⟨rfl, rfl⟩

/-- A recovered package can be taken off. -/
theorem recovers_cons {t : CheckState gcm} (hfeeds : Feeds s (frameBytes pkg) 1 t)
    (herr : t.errCnt = s.errCnt) : Recovers s (pkg :: pkgs) ↔ Recovers t pkgs := by
  have hall := hfeeds.append (feeds_all t (pkgs.flatMap frameBytes))
  unfold Recovers
  rw [List.flatMap_cons, hall.recovered_eq, hall.final_eq, herr, List.length_cons, Nat.add_comm 1,
    Nat.add_right_cancel_iff]

/-- Accepted packages are recovered exactly when their frames are unbroken. -/
theorem recovers_iff (hempty : s.checkBuf.pending = []) (hlen : ∀ pkg ∈ pkgs, pkg.length = 96)
    (haccepted : Accepted s.decryptState pkgs) : Recovers s pkgs ↔ Unbroken pkgs := by
  induction pkgs generalizing s with
  | nil => exact iff_of_true (recovers_nil s) (by simp [Unbroken])
  | cons pkg pkgs ih =>
    obtain ⟨hpkg, hpkgs⟩ := List.forall_mem_cons.mp hlen
    obtain ⟨hsucceed, hrest⟩ := accepted_cons.mp haccepted
    by_cases hbroken : frameDelimiter ∈ pkg.dropLast
    · have hlt := recovered_frames_lt (.inl hempty) hpkg hpkgs (recovered_broken hempty hpkg hbroken)
      constructor
      · intro h
        exact absurd h.1 (Nat.ne_of_lt hlt)
      · intro h
        exact absurd hbroken (h.1 pkg List.mem_cons_self)
    · obtain ⟨t, hfeeds, hpending, herr, hctx⟩ := feeds_package hempty hpkg hbroken
      rw [if_pos hsucceed] at hfeeds herr
      rw [← hctx] at hrest
      rw [recovers_cons hfeeds herr]
      by_cases hmem : frameDelimiter ∈ pkg
      · rw [if_pos hmem] at hpending
        cases pkgs with
        | nil => exact iff_of_true (recovers_nil t) (by simpa [Unbroken] using hbroken)
        | cons next rest =>
          obtain ⟨hnext, hothers⟩ := List.forall_mem_cons.mp hpkgs
          have hlt := recovered_frames_lt (.inr hpending) hnext hothers
            (recovered_misaligned hpending hnext)
          constructor
          · intro h
            exact absurd h.1 (Nat.ne_of_lt hlt)
          · intro h
            exact absurd hmem (h.2 pkg List.mem_cons_self)
      · rw [if_neg hmem] at hpending
        rw [unbroken_cons hmem]
        exact ih hpending hpkgs hrest

end Packages

section Streams

variable {s : CheckState gcm} {stream : List Byte}

/-- The length of the packet never exceeds the size of its buffer. -/
def LenBounded (s : CheckState gcm) (stream : List Byte) : Prop :=
  ∀ event ∈ outputs checkPacket s stream, event.len.toNat ≤ chkBufSize

/-- The length is bounded in a stream if it is after the first byte and from there on. -/
theorem lenBounded_cons {c : Byte} :
    LenBounded s (c :: stream) ↔
      (checkPacket s c).1.len.toNat ≤ chkBufSize ∧ LenBounded (checkPacket s c).2 stream :=
  List.forall_mem_cons

/-- With an incomplete packet in the buffer, the buffer suffices exactly when that packet and the packets
of the stream fit. -/
theorem lenBounded_iff (hlen : s.checkBuf.pending.length ≤ chkBufSize)
    (hpending : frameDelimiter ∉ s.checkBuf.pending.tail) :
    LenBounded s stream ↔ PacketsFit frameDelimiter chkBufSize (s.checkBuf.pending ++ stream) := by
  induction stream generalizing s with
  | nil =>
    rw [List.append_nil]
    exact iff_of_true (fun _ h => absurd h List.not_mem_nil) (packetsFit_of_length_le hlen)
  | cons c stream ih =>
    have hsmall : s.checkBuf.pending.length < 2 ^ 31 - 1 := Nat.lt_of_le_of_lt hlen (by decide)
    have hbytes : s.checkBuf.pending ++ c :: stream = (s.checkBuf.pending ++ [c]) ++ stream := by simp
    have hcount : (s.checkBuf.pending ++ [c]).length = s.checkBuf.pending.length + 1 := by simp
    rw [lenBounded_cons, hbytes, checkPacket_len, (len_add_one hsmall).1]
    by_cases hfull : s.checkBuf.pending.length + 1 ≤ chkBufSize
    · rw [and_iff_right hfull]
      by_cases hc : c = frameDelimiter → s.checkBuf.pending = []
      · obtain ⟨_, hpending', _⟩ := checkPacket_stores hsmall hc
        rw [← hpending']
        apply ih
        · rwa [hpending', hcount]
        · rw [hpending']
          exact not_mem_tail_append hpending hc
      · obtain ⟨rfl, hne⟩ := Classical.not_imp.mp hc
        obtain ⟨_, hpending', _⟩ := checkPacket_ends hsmall hne
        rw [packetsFit_append_iff (isPacket_append hne hpending) (by rwa [hcount])]
        have hrest := ih (s := (checkPacket s frameDelimiter).2) (by rw [hpending']; exact Nat.zero_le _)
          (by rw [hpending']; exact List.not_mem_nil)
        rwa [hpending'] at hrest
    · -- The byte goes behind the end of the buffer.
      constructor
      · intro h
        exact absurd h.1 hfull
      · intro h
        have hle := h.length_le (beginsPacket_append hpending c)
        rw [hcount] at hle
        exact absurd hle hfull

end Streams

/-- From an empty buffer, accepted packages are all recovered and the buffer suffices for a stream
exactly when the frames of the packages are unbroken and the packets of the stream fit in the buffer. -/
theorem framing_correct_iff (s : CheckState gcm) (hempty : s.checkBuf.len = 0) (pkgs : List (List Byte))
    (hlen : ∀ pkg ∈ pkgs, pkg.length = 96) (haccepted : Accepted s.decryptState pkgs)
    (stream : List Byte) :
    Recovers s pkgs ∧ LenBounded s stream ↔
      Unbroken pkgs ∧ PacketsFit frameDelimiter chkBufSize stream := by
  have hpending : s.checkBuf.pending = [] := by
    rw [Packet.pending, hempty]
    rfl
  have hstream : LenBounded s stream ↔ _ := lenBounded_iff (by simp [hpending]) (by simp [hpending])
  rw [hpending, List.nil_append] at hstream
  exact and_congr (recovers_iff hpending hlen haccepted) hstream

/-- The state after `pre_init`, over the cipher of the component. -/
def checkStart : CheckState (codeGcm (fun _ _ => 0) fun _ _ => 0) :=
  ⟨⟨fun _ => 0, 0⟩, 0, initDecrypt blankCode⟩

section Station

/-- The cipher under the key of the ground stations. -/
def stationCipher (b : Block) : Block :=
  (aesEncrypt b b (aesEncryptKey128 (listBlock baseToUavKey) ⟨fun _ => 0, 0⟩)).2

/-- The tag of 80 zero bytes that station 3 sends as the encrypted message of a counter. -/
def stationTag (counter : BitVec 32) : List Byte :=
  (xorBlock (gfMulTMD (lenBlock 0 80) (some (stationCipher zeroBlock)))
    (stationCipher (withCtr (listBlock (ivBytes b2uSalt 3 counter)) 1))).toList.take tagLen

/-- The package of station 3 whose encrypted message is zero. -/
def stationPkg (counter : BitVec 32) : List Byte :=
  (wordBytes 3 ++ wordBytes counter) ++ (List.replicate 80 0 ++ stationTag counter)

variable (counter : BitVec 32)

/-- A tag fills its place in the package. -/
theorem length_stationTag : (stationTag counter).length = tagLen := by
  rw [stationTag, List.length_take, Vector.length_toList]
  rfl

/-- The package has the length of a frame. -/
theorem length_stationPkg : (stationPkg counter).length = 96 := by
  simp only [stationPkg, List.length_append, wordBytes_length, List.length_replicate, length_stationTag]
  rfl

/-- The standard's tag of 80 zero bytes is one product, since the blocks in front of the lengths are
zero. -/
theorem fullTag_zeros (E : Block → Block) {iv : List Byte} (hiv : iv.length = 12) :
    fullTag E iv [] (List.replicate 80 0) =
      xorBlock (gfMulTMD (lenBlock 0 80) (some (E zeroBlock))) (E (withCtr (listBlock iv) 1)) := by
  have hblocks : toBlocks [] ++ toBlocks (List.replicate 80 0) = List.replicate 5 zeroBlock := by decide
  have hhash : messageHash E [] (List.replicate 80 0) =
      blockVal (gfMulTMD (lenBlock 0 80) (some (E zeroBlock))) := by
    rw [messageHash, hblocks, ghash_concat, blockVal_gfMulTMD]
    simp [ghash, hashKey, blockVal_zeroBlock]
  rw [fullTag, hhash, j0, if_pos hiv, ← eq_valBlock rfl]

/-- The tag is the standard's. -/
theorem stationTag_eq : stationTag counter =
    (fullTag (aes128 sBox (listBlock baseToUavKey)) (ivBytes b2uSalt 3 counter) []
      (List.replicate 80 0)).toList.take tagLen := by
  have hcipher : stationCipher = aes128 sBox (listBlock baseToUavKey) := by
    funext b
    rw [stationCipher, aesEncrypt_keyed]
  rw [fullTag_zeros _ rfl, stationTag, hcipher]

/-- The package opens under the key and the salt of the ground stations. -/
theorem stationPkg_genuine :
    let E := aes128 sBox (listBlock baseToUavKey)
    @Genuine stdGcm (Option Block) id (some (listBlock baseToUavKey)) b2uSalt 3
      ⟨stationPkg counter, gctr E (j0 E (ivBytes b2uSalt 3 counter)) (List.replicate 80 0)⟩ := by
  refine ⟨theirID_header .., ?_, ?_, fun ctx hkey hsalt => ?_⟩
  · rw [length_stationPkg, length_gctr, List.length_replicate]
    rfl
  · rw [length_gctr, List.length_replicate]
    decide
  · have hopened : gcmDecrypt ctx (stationPkg counter) =
        stdGcm.decryptMessage (ivBytes b2uSalt 3 counter) (List.replicate 80 0) (stationTag counter)
          (some (listBlock baseToUavKey)) := by
      rw [stationPkg, gcmDecrypt_sealed _ _ _ _ _ (length_stationTag counter), hsalt]
      exact congrArg _ hkey
    rw [hopened, stdGcm_decryptMessage, stationTag_eq, List.take_take, Nat.min_self, if_pos rfl]
    exact ⟨rfl, rfl⟩

/-- The pilot accepts the package with any counter but zero. -/
theorem stationPkg_accepted (hnew : 0 < counter) :
    Accepted checkStart.decryptState [stationPkg counter] := by
  have hmatch := matches_securePkgInit blankCode blankStd 0 b2uSalt baseToUavKey u2bSalt uavToBaseKey
  have hshort : ∀ pkg ∈ [stationPkg counter], pkg.length < 2 ^ 32 :=
    List.forall_mem_singleton.mpr ((length_stationPkg counter).trans_lt (by decide))
  intro answer hanswer
  rw [checkStart, initDecrypt, hmatch.outputs_decStep hshort] at hanswer
  rw [List.mem_singleton.mp hanswer]
  refine (decStep_genuine stdGcm_opens (stationPkg_genuine counter) (by decide) _ rfl rfl ?_).1.1
  change 0 < theirCounter (stationPkg counter)
  rwa [stationPkg, theirCounter_header]

end Station

/-- The first package of the station is recovered, and a packet of 256 bytes fits. -/
theorem firstPkg_recovered :
    Recovers checkStart [stationPkg 1] ∧ LenBounded checkStart (List.replicate 256 0) := by
  have hlen : ∀ pkg ∈ [stationPkg 1], pkg.length = 96 :=
    List.forall_mem_singleton.mpr (length_stationPkg 1)
  refine (framing_correct_iff checkStart rfl _ hlen (stationPkg_accepted 1 (by decide)) _).mpr ⟨?_, ?_⟩
  · unfold Unbroken
    decide +kernel
  · exact packetsFit_of_length_le (Nat.le_of_eq List.length_replicate)

/-- The package with the counter 126 is accepted by the decryption and yet lost in its frame, and 257
bytes without a delimiter run over the buffer. -/
theorem counter126_lost :
    (stationPkg 126).length = 96 ∧ Accepted checkStart.decryptState [stationPkg 126] ∧
      ¬ Recovers checkStart [stationPkg 126] ∧ ¬ LenBounded checkStart (List.replicate 257 0) := by
  have haccepted := stationPkg_accepted 126 (by decide)
  have hlen : ∀ pkg ∈ [stationPkg 126], pkg.length = 96 :=
    List.forall_mem_singleton.mpr (length_stationPkg 126)
  have hbroken : frameDelimiter ∈ (stationPkg 126).dropLast := by decide
  refine ⟨length_stationPkg 126, haccepted, ?_, ?_⟩
  · rw [recovers_iff rfl hlen haccepted]
    exact fun h => h.1 _ List.mem_cons_self hbroken
  · unfold LenBounded
    decide +kernel

end CamkesVm.Pilot
