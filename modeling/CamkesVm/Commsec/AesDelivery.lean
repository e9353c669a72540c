import CamkesVm.Commsec.AesGcm
import CamkesVm.Commsec.IvUnique

/-!
# Delivery and counter blocks over the code of the component

What holds over a mode that opens what it seals holds over the code, since contexts over the code and
over the standard's mode answer alike: every package that arrives over a lossy channel is accepted and
restores its message.

The code seals a message with what the cipher makes of the zero block and of the counter blocks of its
vector. The vectors of a run are different and the messages are short, so no counter block is encrypted
twice over all messages of a run.
-/

namespace CamkesVm.Commsec

open CamkesVm.Aeslib CamkesVm.Machine

section Delivery

variable {encPtr decPtr : List Byte → List Byte → BitVec 32}

/-- A call of a sender on matching contexts sends the same. -/
theorem Matches.sendStep {ctx : CommsecCtx (codeGcm encPtr decPtr)} {t : CommsecCtx stdGcm}
    (h : Matches ctx t) (call : SendCall) :
    (sendStep ctx call).1 = (sendStep t call).1 ∧ Matches (sendStep ctx call).2 (sendStep t call).2 := by
  obtain ⟨hret, hmem, -, hctx⟩ := h.securePkgEncInPlace call.mem call.msg call.msgStartIdx call.msgLen
  dsimp only [Commsec.sendStep]
  rw [hret, hmem]
  exact ⟨rfl, hctx⟩

/-- The packages of a sender over the code are those over the standard's mode. -/
theorem Matches.sentPackages {ctx : CommsecCtx (codeGcm encPtr decPtr)} {t : CommsecCtx stdGcm}
    (h : Matches ctx t) (calls : List SendCall) : sentPackages ctx calls = sentPackages t calls := by
  have hstep (c : CommsecCtx (codeGcm encPtr decPtr)) (u : CommsecCtx stdGcm) (call : SendCall)
      (hmatch : Matches c u) := hmatch.sendStep call
  exact congrArg (List.filterMap id) (simulation hstep ctx t calls h).1

/-- A package is as long as its message demands, and messages are short. -/
theorem length_sendStep {gcm : Gcm} {ctx : CommsecCtx gcm} {call : SendCall} {sent : Sent}
    (hsent : (sendStep ctx call).1 = some sent) :
    sent.pkg.length = call.msgLen + tagLen + headerLen ∧ call.msgLen ≤ maxMessageLen := by
  dsimp only [sendStep] at hsent
  split at hsent
  next hret =>
    obtain rfl := Option.some.inj hsent
    refine ⟨readRange_length .., ?_⟩
    by_contra hlong
    rw [securePkgEncInPlace] at hret
    split at hret
    · exact absurd hret (by simp)
    · rw [securePkgEnc, if_pos (Nat.lt_of_not_le hlong)] at hret
      exact absurd hret (by simp)
  · exact absurd hsent (by simp)

/-- A package is longer than its message by the header and the tag. -/
theorem length_sentPackages {gcm : Gcm} {calls : List SendCall} (ctx : CommsecCtx gcm) :
    ∀ sent ∈ sentPackages ctx calls, ∃ call ∈ calls,
      sent.pkg.length = call.msgLen + tagLen + headerLen ∧ call.msgLen ≤ maxMessageLen := by
  induction calls generalizing ctx with
  | nil => simp [sentPackages]
  | cons call rest ih =>
    intro sent hsent
    obtain ⟨out, hout, rfl⟩ := List.mem_filterMap.mp hsent
    rw [outputs_cons, List.mem_cons] at hout
    obtain hfirst | hlater := hout
    · exact ⟨call, List.mem_cons_self, length_sendStep hfirst.symm⟩
    · obtain ⟨call', hcall', hlen⟩ := ih _ sent (List.mem_filterMap.mpr ⟨_, hlater, rfl⟩)
      exact ⟨call', List.mem_cons_of_mem _ hcall', hlen⟩

/-- A receiver over the code answers short packages as one over the standard's mode. -/
theorem Matches.outputs_decStep {ctx : CommsecCtx (codeGcm encPtr decPtr)} {t : CommsecCtx stdGcm}
    (h : Matches ctx t) {pkgs : List (List Byte)} (hshort : ∀ pkg ∈ pkgs, pkg.length < 2 ^ 32) :
    outputs decStep ctx pkgs = outputs decStep t pkgs := by
  have hstep (c : CommsecCtx (codeGcm encPtr decPtr)) (u : CommsecCtx stdGcm) (pkg : List Byte)
      (hpkg : pkg ∈ pkgs) (hmatch : Matches c u) :
      (decStep c pkg).1 = (decStep u pkg).1 ∧ Matches (decStep c pkg).2 (decStep u pkg).2 := by
    obtain ⟨hret, hout, hctx⟩ := hmatch.securePkgDec (hshort pkg hpkg)
    exact ⟨Prod.ext hret hout, hctx⟩
  exact (simulation_of_mem hstep h).1

/-- What may arrive over a lossy channel that keeps the order of each sender: each sender's part is a
sublist of the packages of its calls. -/
def Arrives {ι : Type} [DecidableEq ι] (sent : ι → List Sent) (deliveries : List (ι × Sent)) : Prop :=
  ∀ i, ((deliveries.filter (·.1 = i)).map Prod.snd).Sublist (sent i)

/-- Only sent packages arrive. -/
theorem Arrives.mem {ι : Type} [DecidableEq ι] {sent : ι → List Sent} {deliveries : List (ι × Sent)}
    (h : Arrives sent deliveries) : ∀ d ∈ deliveries, d.2 ∈ sent d.1 := by
  intro d hd
  apply (h d.1).subset
  exact List.mem_map.mpr ⟨d, List.mem_filter.mpr ⟨hd, by simp⟩, rfl⟩

variable {ι : Type}

/-- The packages of the senders' calls, over the standard's mode with one key and salt. -/
noncomputable def stdSent (ids : ι → BitVec 32) (salt : BitVec 32) (rawKey : List Byte)
    (replySalt : ι → BitVec 32) (replyKey : ι → List Byte) (calls : ι → List SendCall) (i : ι) :
    List Sent :=
  sentPackages (securePkgInit blankStd (ids i) (replySalt i) (replyKey i) salt rawKey) (calls i)

/-- Delivery over the standard's mode. -/
theorem std_deliveries_accepted [DecidableEq ι] {ids : ι → BitVec 32} (hids : Function.Injective ids)
    (hrange : ∀ i, (ids i).toNat < maxBaseStations) {salt : BitVec 32} {rawKey : List Byte}
    {replySalt : ι → BitVec 32} {replyKey : ι → List Byte} (receiverId receiverSalt : BitVec 32)
    (receiverKey : List Byte) {calls : ι → List SendCall} (hlen : ∀ i, ∀ call ∈ calls i, 1 ≤ call.msgLen)
    {deliveries : List (ι × Sent)}
    (harrives : Arrives (stdSent ids salt rawKey replySalt replyKey calls) deliveries) :
    List.Forall₂ (fun d out => out.1 = .succeed ∧ out.2.length = d.2.pkg.length ∧
        (out.2.drop headerLen).take (securePkgSizeOfMessage out.2.length).toNat = d.2.message)
      deliveries
      (outputs decStep (securePkgInit blankStd receiverId salt rawKey receiverSalt receiverKey)
        (deliveries.map fun d => d.2.pkg)) := by
  have hsent (i : ι) := sentPackages_genuine stdGcm_opens (calls i)
    (securePkgInit blankStd (ids i) (replySalt i) (replyKey i) salt rawKey) (hlen i)
  apply outputs_decStep_genuine stdGcm_opens hids hrange deliveries _ rfl rfl
  · intro d hd
    exact ((hsent d.1).1 d.2 (harrives.mem d hd)).2
  · exact pairwise_of_filter fun i => (hsent i).2.sublist (harrives i)
  · intro d hd
    have hfirst : 1 ≤ theirCounter d.2.pkg := ((hsent d.1).1 d.2 (harrives.mem d hd)).1
    change 0 < theirCounter d.2.pkg
    bv_omega

/-- The packages of the senders' calls, over the code of the component with one key and salt. -/
def codeSent {encPtr decPtr : ι → List Byte → List Byte → BitVec 32}
    (blank : ∀ i, CommsecCtx (codeGcm (encPtr i) (decPtr i))) (ids : ι → BitVec 32) (salt : BitVec 32)
    (rawKey : List Byte) (replySalt : ι → BitVec 32) (replyKey : ι → List Byte)
    (calls : ι → List SendCall) (i : ι) : List Sent :=
  sentPackages (securePkgInit (blank i) (ids i) (replySalt i) (replyKey i) salt rawKey) (calls i)

/-- The stations over the code send what they send over the standard's mode. -/
theorem codeSent_eq {encPtr decPtr : ι → List Byte → List Byte → BitVec 32}
    (blank : ∀ i, CommsecCtx (codeGcm (encPtr i) (decPtr i))) (ids : ι → BitVec 32) (salt : BitVec 32)
    (rawKey : List Byte) (replySalt : ι → BitVec 32) (replyKey : ι → List Byte)
    (calls : ι → List SendCall) :
    codeSent blank ids salt rawKey replySalt replyKey calls =
      stdSent ids salt rawKey replySalt replyKey calls := by
  funext i
  have hmatch := matches_securePkgInit (blank i) blankStd (ids i) (replySalt i) (replyKey i) salt rawKey
  exact hmatch.sentPackages (calls i)

/-- Packages that arrive are short. -/
theorem Arrives.short [DecidableEq ι] {ids : ι → BitVec 32} {salt : BitVec 32} {rawKey : List Byte}
    {replySalt : ι → BitVec 32} {replyKey : ι → List Byte} {calls : ι → List SendCall}
    {deliveries : List (ι × Sent)}
    (h : Arrives (stdSent ids salt rawKey replySalt replyKey calls) deliveries) :
    ∀ pkg ∈ deliveries.map fun d => d.2.pkg, pkg.length < 2 ^ 32 := by
  intro pkg hpkg
  obtain ⟨d, hd, rfl⟩ := List.mem_map.mp hpkg
  obtain ⟨call, -, hlen, hmax⟩ := length_sentPackages _ _ (h.mem d hd)
  have hshort : maxMessageLen + tagLen + headerLen < 2 ^ 32 := by decide
  omega

/-- Every package that arrives over a lossy channel that keeps the order of each sender is accepted
and restores its message, with the code of the component on both sides. -/
theorem packages_delivered_over_code [DecidableEq ι]
    {encPtr decPtr : ι → List Byte → List Byte → BitVec 32}
    {encPtr' decPtr' : List Byte → List Byte → BitVec 32} (ids : ι → BitVec 32)
    (hids : Function.Injective ids) (hrange : ∀ i, (ids i).toNat < maxBaseStations) (salt : BitVec 32)
    (rawKey : List Byte) (blank : ∀ i, CommsecCtx (codeGcm (encPtr i) (decPtr i)))
    (replySalt : ι → BitVec 32) (replyKey : ι → List Byte)
    (blankReceiver : CommsecCtx (codeGcm encPtr' decPtr')) (receiverId receiverSalt : BitVec 32)
    (receiverKey : List Byte) (calls : ι → List SendCall)
    (hlen : ∀ i, ∀ call ∈ calls i, 1 ≤ call.msgLen) (deliveries : List (ι × Sent))
    (harrives : Arrives (codeSent blank ids salt rawKey replySalt replyKey calls) deliveries) :
    List.Forall₂ (fun d out => out.1 = .succeed ∧ out.2.length = d.2.pkg.length ∧
        (out.2.drop headerLen).take (securePkgSizeOfMessage out.2.length).toNat = d.2.message)
      deliveries
      (outputs decStep (securePkgInit blankReceiver receiverId salt rawKey receiverSalt receiverKey)
        (deliveries.map fun d => d.2.pkg)) := by
  rw [codeSent_eq] at harrives
  have hreceiver := matches_securePkgInit blankReceiver blankStd receiverId salt rawKey receiverSalt
    receiverKey
  rw [hreceiver.outputs_decStep harrives.short]
  exact std_deliveries_accepted hids hrange receiverId receiverSalt receiverKey hlen harrives

/-- A message of station 3 arrives. -/
theorem sample_delivered_over_code :
    let sent := sentPackages (securePkgInit blankCode 3 284920 sampleKey.reverse 9219834 sampleKey)
      sampleCalls
    sent.length = 2 ∧
      List.Forall₂ (fun d out => out.1 = .succeed ∧ out.2.length = d.2.pkg.length ∧
          (out.2.drop headerLen).take (securePkgSizeOfMessage out.2.length).toNat = d.2.message)
        (sent.map fun s => ((), s))
        (outputs decStep (securePkgInit blankCode 0 9219834 sampleKey 284920 sampleKey.reverse)
          ((sent.map fun s => ((), s)).map fun d => d.2.pkg)) := by
  intro sent
  constructor
  · have hsame := (matches_securePkgInit blankCode blankStd 3 284920 sampleKey.reverse 9219834
      sampleKey).sentPackages sampleCalls
    exact (congrArg List.length hsame).trans rfl
  · have harrives : Arrives (fun _ : Unit => sent) (sent.map fun s => ((), s)) := by
      intro i
      simp
    exact packages_delivered_over_code (fun _ : Unit => 3) (fun _ _ _ => rfl) (fun _ => by decide)
      9219834 sampleKey (fun _ => blankCode) (fun _ => 284920) (fun _ => sampleKey.reverse) blankCode
      0 284920 sampleKey.reverse (fun _ => sampleCalls) (fun _ => by simp [sampleCalls]) _ harrives

end Delivery

section Counters

/-- The counter blocks of a message of the protocol: the first one is for its tag, the others for up to
`maxMessageLen` bytes. -/
noncomputable def counterBlocks (key : Block) (iv : List Byte) : List Block :=
  (List.range (maxMessageLen / 16 + 1)).map fun k => inc32^[k] (j0 (aes128 sBox key) iv)

/-- The code seals a message of the protocol with what the cipher makes of the zero block and of the
counter blocks of its vector, whatever it makes of other blocks. -/
theorem code_seals_from_counter_blocks {encPtr decPtr : List Byte → List Byte → BitVec 32} {key : Block}
    {ctx : GcmCtx} (hkeyed : Keyed key ctx) {iv msg : List Byte} (hiv : iv.length = 12)
    (hmsg : msg.length ≤ maxMessageLen) {E : Block → Block}
    (hE : ∀ b ∈ zeroBlock :: counterBlocks key iv, aes128 sBox key b = E b) :
    let r := (codeGcm encPtr decPtr).encryptMessage iv msg ctx
    r.msg = gctr E (j0 E iv) msg ∧ r.tag = (fullTag E iv [] r.msg).toList.take tagLen := by
  have hholds : HoldsKey ctx (some key) := ⟨key, rfl, hkeyed⟩
  have hmax : maxMessageLen = 512 := rfl
  obtain ⟨-, htext, htag, -⟩ :=
    @HoldsKey.encryptMessage encPtr decPtr _ _ hholds _ msg hiv (by omega)
  have hcounter (k : ℕ) (hk : k < maxMessageLen / 16 + 1) :
      aes128 sBox key (inc32^[k] (j0 (aes128 sBox key) iv)) = E (inc32^[k] (j0 (aes128 sBox key) iv)) :=
    hE _ (List.mem_cons_of_mem _ (List.mem_map.mpr ⟨k, List.mem_range.mpr hk, rfl⟩))
  have hstream : gctr (aes128 sBox key) (j0 (aes128 sBox key) iv) msg =
      gctr E (j0 (aes128 sBox key) iv) msg :=
    gctr_congr fun k hk => hcounter (k + 1) (by omega)
  refine ⟨htext.trans (hstream.trans ?_), htag.trans ?_⟩
  · rw [j0_congr hiv]
  · rw [htext, ← fullTag_congr hiv (hE _ List.mem_cons_self) (hcounter 0 (by omega))]
    rfl

/-- Station 3 seals a message. A function that knows the cipher at its counter blocks only would seal it
in the same way. -/
theorem station_seals_from_counter_blocks :
    let key := listBlock [2]
    let iv := ivBytes 9219834 3 1
    let E := fun b => if b ∈ zeroBlock :: counterBlocks key iv then aes128 sBox key b else zeroBlock
    let r := (codeGcm (fun _ _ => 0) fun _ _ => 0).encryptMessage iv [0x4E, 0x4F]
      (gcmInitAndKey key gcmEnd)
    r.msg = gctr E (j0 E iv) [0x4E, 0x4F] ∧ r.tag = (fullTag E iv [] r.msg).toList.take tagLen :=
  code_seals_from_counter_blocks (gcmInitAndKey_keyed _ _) rfl (by decide) fun _ hb => (if_pos hb).symm

/-- Counter block `k` behind a vector of the protocol. -/
theorem iterate_inc32_j0 (E : Block → Block) {iv : List Byte} (hiv : iv.length = 12) (k : ℕ) :
    inc32^[k] (j0 E iv) = withCtr (listBlock iv) (1 + BitVec.ofNat 32 k) := by
  rw [j0, if_pos hiv]
  cases k with
  | zero => rfl
  | succ k => rw [iterate_inc32, withCtr_withCtr, ctrWord_withCtr]

/-- Counter blocks of one message have different counters, none of them zero. -/
theorem counter_injective {k l : ℕ} (hk : k < maxMessageLen / 16 + 1) (hl : l < maxMessageLen / 16 + 1)
    (h : (1 + BitVec.ofNat 32 k : BitVec 32) = 1 + BitVec.ofNat 32 l) : k = l := by
  have hblocks : maxMessageLen / 16 + 1 = 33 := rfl
  have hnat := congrArg BitVec.toNat ((BitVec.add_right_inj 1).mp h)
  rw [BitVec.toNat_ofNat, BitVec.toNat_ofNat] at hnat
  omega

/-- The counter blocks of one vector are distinct. -/
theorem counterBlocks_nodup (key : Block) {iv : List Byte} (hiv : iv.length = 12) :
    (counterBlocks key iv).Nodup := by
  apply List.Nodup.map_on _ List.nodup_range
  intro k hk l hl h
  rw [iterate_inc32_j0 _ hiv, iterate_inc32_j0 _ hiv] at h
  have hctr := congrArg ctrWord h
  rw [ctrWord_withCtr, ctrWord_withCtr] at hctr
  exact counter_injective (List.mem_range.mp hk) (List.mem_range.mp hl) hctr

/-- The counter blocks of different vectors are distinct. -/
theorem counterBlocks_disjoint (key : Block) {iv iv' : List Byte} (hiv : iv.length = 12)
    (hiv' : iv'.length = 12) (hne : iv ≠ iv') :
    (counterBlocks key iv).Disjoint (counterBlocks key iv') := by
  intro b hb hb'
  obtain ⟨k, -, rfl⟩ := List.mem_map.mp hb
  obtain ⟨l, -, h⟩ := List.mem_map.mp hb'
  rw [iterate_inc32_j0 _ hiv, iterate_inc32_j0 _ hiv'] at h
  exact withCtr_listBlock_ne hiv hiv' hne _ _ h.symm

/-- The hash key is not encrypted from a counter block. -/
theorem zeroBlock_notMem_counterBlocks (key : Block) {iv : List Byte} (hiv : iv.length = 12) :
    zeroBlock ∉ counterBlocks key iv := by
  intro h
  obtain ⟨k, hk, h⟩ := List.mem_map.mp h
  have hblocks : maxMessageLen / 16 + 1 = 33 := rfl
  rw [List.mem_range, hblocks] at hk
  rw [iterate_inc32_j0 _ hiv] at h
  have hctr := congrArg ctrWord h
  rw [ctrWord_withCtr] at hctr
  have hzero : ctrWord zeroBlock = 0 := by decide
  have hnat := congrArg BitVec.toNat (hctr.trans hzero)
  change (1 + k % 2 ^ 32) % 2 ^ 32 = 0 at hnat
  omega

/-- Over all messages of a run no block is encrypted twice under the sender's key: neither the zero
block of the hash key nor a counter block. Senders with the same key and another salt or identity use
other counter blocks. -/
theorem counter_blocks_never_reused {encPtr decPtr encPtr' decPtr' : List Byte → List Byte → BitVec 32}
    (ctx : CommsecCtx (codeGcm encPtr decPtr)) (myID decSalt : BitVec 32) (rawDecKey : List Byte)
    (encSalt : BitVec 32) (rawEncKey : List Byte) (calls : List CommsecCall) :
    let start := securePkgInit ctx myID decSalt rawDecKey encSalt rawEncKey
    let blocks := counterBlocks (listBlock (rawEncKey.take 16))
    (zeroBlock :: (handedIvs start calls).flatMap blocks).Nodup ∧
      ∀ (ctx' : CommsecCtx (codeGcm encPtr' decPtr')) (myID' decSalt' : BitVec 32)
        (rawDecKey' : List Byte) (encSalt' : BitVec 32) (calls' : List CommsecCall),
        (encSalt, myID) ≠ (encSalt', myID') →
        ((handedIvs start calls).flatMap blocks).Disjoint
          ((handedIvs (securePkgInit ctx' myID' decSalt' rawDecKey' encSalt' rawEncKey) calls').flatMap
            blocks) := by
  intro start blocks
  have hlen : ∀ iv ∈ handedIvs start calls, iv.length = 12 := by
    intro iv hiv
    obtain ⟨counter, -, rfl⟩ := mem_handedIvs start calls iv hiv
    rfl
  refine ⟨List.nodup_cons.mpr ⟨?_, ?_⟩, ?_⟩
  · intro hzero
    obtain ⟨iv, hiv, hzero⟩ := List.mem_flatMap.mp hzero
    exact zeroBlock_notMem_counterBlocks _ (hlen iv hiv) hzero
  · refine List.nodup_flatMap.mpr ⟨fun iv hiv => counterBlocks_nodup _ (hlen iv hiv), ?_⟩
    refine (handedIvs_nodup start calls).imp_of_mem fun hiv hiv' hne => ?_
    exact counterBlocks_disjoint _ (hlen _ hiv) (hlen _ hiv') hne
  · intro ctx' myID' decSalt' rawDecKey' encSalt' calls' hdiffer b hb hb'
    obtain ⟨iv, hiv, hb⟩ := List.mem_flatMap.mp hb
    obtain ⟨iv', hiv', hb'⟩ := List.mem_flatMap.mp hb'
    obtain ⟨counter, -, rfl⟩ := mem_handedIvs start calls iv hiv
    obtain ⟨counter', -, rfl⟩ := mem_handedIvs _ calls' iv' hiv'
    refine counterBlocks_disjoint _ rfl rfl (fun heq => ?_) hb hb'
    obtain ⟨hsalt, hid, -⟩ := ivBytes_injective heq
    exact hdiffer (Prod.ext hsalt hid)

/-- Stations 3 and 5 with one key and salt, each of which seals a message. -/
theorem stations_share_no_counter_block :
    let blocks := counterBlocks (listBlock ([2].take 16))
    let calls := [.encInPlace (fun _ => 0x4E) 0 8 3]
    ((handedIvs (securePkgInit blankCode 3 284920 [1] 9219834 [2]) calls).flatMap blocks).Disjoint
      ((handedIvs (securePkgInit blankCode 5 284920 [1] 9219834 [2]) calls).flatMap blocks) :=
  (counter_blocks_never_reused blankCode 3 284920 [1] 9219834 [2] _).2 blankCode 5 284920 [1] 9219834 _
    (by decide)

end Counters

end CamkesVm.Commsec
