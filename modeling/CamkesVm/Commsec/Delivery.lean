import CamkesVm.Commsec.Rejection

/-!
# Delivery over a lossy channel

Any number of senders with different station ids share one key and one salt with a receiver.
The channel may drop packages and mix those of different senders, but keeps the order of each
sender. Every package that arrives is accepted and opens to its message: the header a sender
writes is the one the receiver parses, and the counters a receiver sees from one station
increase.
-/

namespace CamkesVm.Commsec

open CamkesVm.Machine

variable {gcm : Gcm}

/-- Calls keep the key, and decryption under the key and vector of a successful encryption
restores the plaintext whatever either context did before. -/
structure Opens (gcm : Gcm) {Key : Type} (key : gcm.Ctx → Key) : Prop where
  key_init : ∀ raw ctx ctx', key (gcm.initAndKey raw ctx) = key (gcm.initAndKey raw ctx')
  key_encrypt : ∀ iv msg ctx, key (gcm.encryptMessage iv msg ctx).ctx = key ctx
  key_decrypt : ∀ iv msg tag ctx, key (gcm.decryptMessage iv msg tag ctx).ctx = key ctx
  opens : ∀ iv msg ctx ctx', key ctx = key ctx' → (gcm.encryptMessage iv msg ctx).ret = returnGood →
    let opened := gcm.decryptMessage iv (gcm.encryptMessage iv msg ctx).msg
      (gcm.encryptMessage iv msg ctx).tag ctx'
    opened.ret = returnGood ∧ opened.msg = msg

/-- The arguments of an encryption in place. -/
structure SendCall where
  mem : ℕ → Byte
  msg : ℕ
  msgStartIdx : ℕ
  msgLen : ℕ

/-- A package on the channel, with the message it was made from. -/
structure Sent where
  pkg : List Byte
  message : List Byte
  deriving DecidableEq

/-- One encryption in place. When it succeeds its package is read from the memory it leaves. -/
def sendStep (ctx : CommsecCtx gcm) (call : SendCall) : Option Sent × CommsecCtx gcm :=
  let r := securePkgEncInPlace ctx call.mem call.msg call.msgStartIdx call.msgLen
  (if r.ret = .succeed then
    some ⟨readRange r.mem (call.msg + call.msgStartIdx - headerLen)
        (securePkgSizeOfPackage call.msgLen).toNat,
      readRange call.mem (call.msg + call.msgStartIdx) call.msgLen⟩
    else none, r.ctx)

/-- The packages of the successful calls, in the order sent. -/
def sentPackages (ctx : CommsecCtx gcm) (calls : List SendCall) : List Sent :=
  (outputs sendStep ctx calls).filterMap id

/-- The length of a message as a subtraction of natural numbers. -/
theorem securePkgSizeOfMessage_toNat (pkgLen : ℕ) :
    (securePkgSizeOfMessage pkgLen).toNat = pkgLen - headerLen - tagLen := by
  unfold securePkgSizeOfMessage
  omega

/-- A counter below the largest one advances. -/
theorem lt_add_one_of_ne {counter : BitVec 32} (hmax : counter ≠ uint32Max) :
    counter < counter + 1 := by
  have hlt := BitVec.lt_of_le_ne (le_uint32Max counter) hmax
  bv_omega

/-- The header, the ciphertext and the tag of a package written in place do not overlap. -/
theorem readRange_sealed (mem : ℕ → Byte) (start msgLen : ℕ) (header ct tag : List Byte)
    (hheader : header.length = headerLen) (hct : ct.length = msgLen) (htag : tag.length = tagLen)
    (hstart : headerLen ≤ start) :
    readRange (writeRange (writeRange (writeRange mem start ct) (start + msgLen) tag)
      (start - headerLen) header) (start - headerLen) (msgLen + tagLen + headerLen) =
      header ++ (ct ++ tag) := by
  have hsize : msgLen + tagLen + headerLen = header.length + (ct.length + tag.length) := by omega
  have hct' : start - headerLen + header.length = start := by omega
  have htag' : start + msgLen = start + ct.length := by omega
  rw [hsize, readRange_add, readRange_writeRange, hct',
    readRange_writeRange_of_disjoint _ _ _ _ _ (Or.inr hct'.le), readRange_add, htag',
    readRange_writeRange_of_disjoint _ _ _ _ _ (Or.inl le_rfl), readRange_writeRange,
    readRange_writeRange]

/-- The ciphertext and the tag of a package are found from its length. -/
theorem parts_sealed (header ct tag : List Byte) (hheader : header.length = headerLen)
    (htag : tag.length = tagLen) :
    let pkg := header ++ (ct ++ tag)
    (pkg.drop headerLen).take (pkg.length - headerLen - tagLen) = ct ∧
      pkg.drop (pkg.length - tagLen) = tag := by
  have hlength : (header ++ (ct ++ tag)).length = headerLen + ct.length + tagLen := by
    simp only [List.length_append, hheader, htag, Nat.add_assoc]
  have hct : headerLen + ct.length + tagLen - headerLen - tagLen = ct.length := by omega
  refine ⟨?_, ?_⟩
  · rw [hlength, hct, List.drop_left' hheader, List.take_left]
  · rw [hlength, Nat.add_sub_cancel, ← List.drop_drop, List.drop_left' hheader, List.drop_left]

/-- The header of a package parses to the station it was written from. -/
theorem theirID_header (station counter : BitVec 32) (rest : List Byte) :
    theirID ((wordBytes station ++ wordBytes counter) ++ rest) = station :=
  ofWordBytes_wordBytes station

/-- The header of a package parses to the counter it was written from. -/
theorem theirCounter_header (station counter : BitVec 32) (rest : List Byte) :
    theirCounter ((wordBytes station ++ wordBytes counter) ++ rest) = counter :=
  ofWordBytes_wordBytes counter

section Keyed

variable {Key : Type} {key : gcm.Ctx → Key}

/-- The package comes from the station, and a receiver with this key and salt opens it. -/
structure Genuine (key : gcm.Ctx → Key) (k : Key) (salt station : BitVec 32) (sent : Sent) :
    Prop where
  station_eq : theirID sent.pkg = station
  pkg_length : sent.pkg.length = sent.message.length + tagLen + headerLen
  message_length : 1 ≤ sent.message.length
  opens : ∀ ctx : CommsecCtx gcm, key ctx.decCtx = k → ctx.decSalt = salt →
    (gcmDecrypt ctx sent.pkg).ret = returnGood ∧ (gcmDecrypt ctx sent.pkg).msg = sent.message

/-- Decryption takes a package apart where encryption put it together. -/
theorem gcmDecrypt_sealed (ctx : CommsecCtx gcm) (station counter : BitVec 32)
    (ct tag : List Byte) (htag : tag.length = tagLen) :
    gcmDecrypt ctx ((wordBytes station ++ wordBytes counter) ++ (ct ++ tag)) =
      gcm.decryptMessage (ivBytes ctx.decSalt station counter) ct tag ctx.decCtx := by
  obtain ⟨hct, htag⟩ := parts_sealed (wordBytes station ++ wordBytes counter) ct tag rfl htag
  rw [gcmDecrypt, theirID_header, theirCounter_header, hct, htag]

/-- Encryption in place keeps key, salt and id, and never turns the counter back. -/
theorem securePkgEncInPlace_keeps (hgcm : Opens gcm key) (ctx : CommsecCtx gcm) (mem : ℕ → Byte)
    (msg msgStartIdx msgLen : ℕ) :
    let r := securePkgEncInPlace ctx mem msg msgStartIdx msgLen
    (key r.ctx.encCtx = key ctx.encCtx ∧ r.ctx.encSalt = ctx.encSalt ∧ r.ctx.myId = ctx.myId) ∧
      ctx.myCounter ≤ r.ctx.myCounter := by
  dsimp only [securePkgEncInPlace]
  split
  · exact ⟨⟨rfl, rfl, rfl⟩, BitVec.le_refl _⟩
  · unfold securePkgEnc
    split
    · exact ⟨⟨rfl, rfl, rfl⟩, BitVec.le_refl _⟩
    · split
      · exact ⟨⟨rfl, rfl, rfl⟩, BitVec.le_refl _⟩
      next hmax => exact ⟨⟨hgcm.key_encrypt .., rfl, rfl⟩, BitVec.le_of_lt (lt_add_one_of_ne hmax)⟩

/-- A successful encryption in place leaves header, ciphertext and tag one behind the other. -/
theorem securePkgEncInPlace_package {ctx : CommsecCtx gcm} {mem : ℕ → Byte}
    {msg msgStartIdx msgLen : ℕ}
    (hret : (securePkgEncInPlace ctx mem msg msgStartIdx msgLen).ret = .succeed) :
    let r := securePkgEncInPlace ctx mem msg msgStartIdx msgLen
    let sealed := gcm.encryptMessage (ivBytes ctx.encSalt ctx.myId ctx.myCounter)
      (readRange mem (msg + msgStartIdx) msgLen) ctx.encCtx
    sealed.ret = returnGood ∧ ctx.myCounter < r.ctx.myCounter ∧
      readRange r.mem (msg + msgStartIdx - headerLen) (msgLen + tagLen + headerLen) =
        (wordBytes ctx.myId ++ wordBytes ctx.myCounter) ++ (sealed.msg ++ sealed.tag) := by
  dsimp only
  rw [securePkgEncInPlace] at hret ⊢
  split at hret
  · exact absurd hret (by simp)
  next hstart =>
    rw [if_neg hstart]
    rw [securePkgEnc] at hret ⊢
    split at hret
    · exact absurd hret (by simp)
    next hlen =>
      rw [if_neg hlen]
      split at hret
      · exact absurd hret (by simp)
      next hmax =>
        rw [if_neg hmax]
        dsimp only at hret ⊢
        split at hret
        next hgood =>
          refine ⟨hgood.symm, lt_add_one_of_ne hmax, ?_⟩
          exact readRange_sealed mem (msg + msgStartIdx) msgLen _ _ _ rfl
            ((gcm.encrypt_msg_length _ _ _).trans (readRange_length _ _ _))
            (gcm.encrypt_tag_length _ _ _) (Nat.le_add_left_of_le (Nat.le_of_not_lt hstart))
        · exact absurd hret (by simp)

/-- One send keeps key, salt and id. A package it makes is genuine, carries the counter from
before the call, and advances it. -/
theorem sendStep_spec (hgcm : Opens gcm key) (ctx : CommsecCtx gcm) (call : SendCall)
    (hlen : 1 ≤ call.msgLen) {sent : Sent} (hsent : (sendStep ctx call).1 = some sent) :
    ctx.myCounter < (sendStep ctx call).2.myCounter ∧ theirCounter sent.pkg = ctx.myCounter ∧
      Genuine key (key ctx.encCtx) ctx.encSalt ctx.myId sent := by
  dsimp only [sendStep] at hsent
  split at hsent
  next hret =>
    obtain ⟨hgood, hcounter, hpkg⟩ := securePkgEncInPlace_package hret
    have hsize : (securePkgSizeOfPackage call.msgLen).toNat = call.msgLen + tagLen + headerLen :=
      rfl
    rw [hsize, hpkg] at hsent
    obtain rfl := Option.some.inj hsent
    refine ⟨hcounter, theirCounter_header .., theirID_header .., ?_, ?_, ?_⟩
    · simp only [List.length_append, wordBytes_length, gcm.encrypt_msg_length,
        gcm.encrypt_tag_length, readRange_length]
      exact Nat.add_comm headerLen _
    · simpa using hlen
    · intro receiver hkey hsalt
      dsimp only
      rw [gcmDecrypt_sealed _ _ _ _ _ (gcm.encrypt_tag_length _ _ _), hsalt]
      exact hgcm.opens _ _ _ _ hkey.symm hgood
  · exact absurd hsent (by simp)

/-- The packages of one sender are genuine, start at its counter, and carry increasing
counters. -/
theorem sentPackages_genuine (hgcm : Opens gcm key) (calls : List SendCall) (ctx : CommsecCtx gcm)
    (hlen : ∀ call ∈ calls, 1 ≤ call.msgLen) :
    (∀ sent ∈ sentPackages ctx calls, ctx.myCounter ≤ theirCounter sent.pkg ∧
      Genuine key (key ctx.encCtx) ctx.encSalt ctx.myId sent) ∧
      (sentPackages ctx calls).Pairwise fun a b => theirCounter a.pkg < theirCounter b.pkg := by
  induction calls generalizing ctx with
  | nil => simp [sentPackages]
  | cons call rest ih =>
    have hfirst := hlen call List.mem_cons_self
    obtain ⟨⟨hkey, hsalt, hid⟩, hcounter⟩ := securePkgEncInPlace_keeps hgcm ctx call.mem call.msg
      call.msgStartIdx call.msgLen
    obtain ⟨hrest, hpairs⟩ := ih (sendStep ctx call).2 fun c hc => hlen c (List.mem_cons_of_mem _ hc)
    have hrest' : ∀ sent ∈ sentPackages (sendStep ctx call).2 rest,
        ctx.myCounter ≤ theirCounter sent.pkg ∧
          Genuine key (key ctx.encCtx) ctx.encSalt ctx.myId sent := by
      intro sent hsent
      obtain ⟨hle, hgenuine⟩ := hrest sent hsent
      rw [← hkey, ← hsalt, ← hid]
      exact ⟨BitVec.le_trans hcounter hle, hgenuine⟩
    cases hout : (sendStep ctx call).1 with
    | none =>
      have hskip : sentPackages ctx (call :: rest) = sentPackages (sendStep ctx call).2 rest := by
        simp [sentPackages, hout]
      rw [hskip]
      exact ⟨hrest', hpairs⟩
    | some sent =>
      have hsend : sentPackages ctx (call :: rest) =
          sent :: sentPackages (sendStep ctx call).2 rest := by
        simp [sentPackages, hout]
      obtain ⟨hadvance, htheirs, hgenuine⟩ := sendStep_spec hgcm ctx call hfirst hout
      rw [hsend, List.forall_mem_cons, List.pairwise_cons, htheirs]
      refine ⟨⟨⟨BitVec.le_refl _, hgenuine⟩, hrest'⟩, ?_, hpairs⟩
      intro later hlater
      have hle := (hrest later hlater).1
      bv_omega

/-- A receiver with the key and salt accepts a genuine package with a new counter, restores its
message and records the counter. -/
theorem decStep_genuine {k : Key} {salt station : BitVec 32} {sent : Sent}
    (hgcm : Opens gcm key) (hsent : Genuine key k salt station sent)
    (hstation : station.toNat < maxBaseStations) (ctx : CommsecCtx gcm)
    (hkey : key ctx.decCtx = k) (hsalt : ctx.decSalt = salt)
    (hnew : ctx.mostRecentCounter ⟨station.toNat, hstation⟩ < theirCounter sent.pkg) :
    let out := (decStep ctx sent.pkg).1
    let next := (decStep ctx sent.pkg).2
    (out.1 = .succeed ∧ out.2.length = sent.pkg.length ∧
      (out.2.drop headerLen).take (securePkgSizeOfMessage out.2.length).toNat = sent.message) ∧
      key next.decCtx = k ∧ next.decSalt = salt ∧
      next.mostRecentCounter =
        Function.update ctx.mostRecentCounter ⟨station.toNat, hstation⟩ (theirCounter sent.pkg) := by
  obtain ⟨rfl, hlength, hmessage, hopens⟩ := hsent
  obtain ⟨hret, hmsg⟩ := hopens ctx hkey hsalt
  have hlong : ¬ sent.pkg.length < headerLen + tagLen + 1 := by omega
  have haccept : securePkgDec ctx sent.pkg =
      ⟨.succeed, sent.pkg.take headerLen ++ (sent.message ++ sent.pkg.drop (sent.pkg.length - tagLen)),
        { ctx with
          decCtx := (gcmDecrypt ctx sent.pkg).ctx
          mostRecentCounter := Function.update ctx.mostRecentCounter ⟨_, hstation⟩
            (theirCounter sent.pkg) }⟩ := by
    rw [securePkgDec, if_neg hlong, dif_pos hstation]
    dsimp only
    rw [if_neg (BitVec.not_le.mpr hnew), if_pos hret.symm, hmsg, List.append_assoc]
  have hheader : (sent.pkg.take headerLen).length = headerLen := by
    rw [List.length_take]
    omega
  have htag : (sent.pkg.drop (sent.pkg.length - tagLen)).length = tagLen := by
    rw [List.length_drop]
    omega
  obtain ⟨hrestored, _⟩ := parts_sealed _ sent.message _ hheader htag
  dsimp only [decStep]
  rw [haccept]
  refine ⟨⟨rfl, ?_, ?_⟩, (hgcm.key_decrypt ..).trans hkey, hsalt, rfl⟩
  · simp only [List.length_append, hheader, htag]
    omega
  · rw [securePkgSizeOfMessage_toNat]
    exact hrestored

/-- A receiver accepts any mix of the senders' packages in which the counters of each station
are new and increase. -/
theorem outputs_decStep_genuine {ι : Type} {ids : ι → BitVec 32} {k : Key} {salt : BitVec 32}
    (hgcm : Opens gcm key) (hids : Function.Injective ids)
    (hrange : ∀ i, (ids i).toNat < maxBaseStations) (deliveries : List (ι × Sent))
    (ctx : CommsecCtx gcm) (hkey : key ctx.decCtx = k) (hsalt : ctx.decSalt = salt)
    (hgenuine : ∀ d ∈ deliveries, Genuine key k salt (ids d.1) d.2)
    (hordered : deliveries.Pairwise fun a b =>
      a.1 = b.1 → theirCounter a.2.pkg < theirCounter b.2.pkg)
    (hnew : ∀ d ∈ deliveries,
      ctx.mostRecentCounter ⟨_, hrange d.1⟩ < theirCounter d.2.pkg) :
    List.Forall₂ (fun d out => out.1 = .succeed ∧ out.2.length = d.2.pkg.length ∧
        (out.2.drop headerLen).take (securePkgSizeOfMessage out.2.length).toNat = d.2.message)
      deliveries (outputs decStep ctx (deliveries.map fun d => d.2.pkg)) := by
  induction deliveries generalizing ctx with
  | nil => exact .nil
  | cons d rest ih =>
    rw [List.forall_mem_cons] at hgenuine hnew
    rw [List.pairwise_cons] at hordered
    obtain ⟨hout, hkey', hsalt', hrecorded⟩ :=
      decStep_genuine hgcm hgenuine.1 (hrange d.1) ctx hkey hsalt hnew.1
    refine .cons hout (ih _ hkey' hsalt' hgenuine.2 hordered.2 ?_)
    intro later hlater
    rw [hrecorded]
    by_cases hsame : d.1 = later.1
    · simpa only [hsame, Function.update_self] using hordered.1 later hlater hsame
    · have hother : (⟨_, hrange later.1⟩ : Fin maxBaseStations) ≠ ⟨_, hrange d.1⟩ := by
        intro heq
        exact hsame (hids (BitVec.eq_of_toNat_eq (Fin.mk.inj heq).symm))
      rw [Function.update_of_ne hother]
      exact hnew.2 later hlater

/-- A list in which the entries of every key are in order is in order among equal keys. -/
theorem pairwise_of_filter {ι α : Type*} [DecidableEq ι] {before : α → α → Prop}
    {entries : List (ι × α)}
    (h : ∀ i, ((entries.filter (·.1 = i)).map Prod.snd).Pairwise before) :
    entries.Pairwise fun a b => a.1 = b.1 → before a.2 b.2 := by
  induction entries with
  | nil => exact .nil
  | cons entry rest ih =>
    refine List.pairwise_cons.mpr ⟨?_, ih fun i => ?_⟩
    · intro later hlater hsame
      have hfirst := h entry.1
      rw [List.filter_cons_of_pos (by simp), List.map_cons, List.pairwise_cons] at hfirst
      exact hfirst.1 _ (List.mem_map.mpr ⟨later, List.mem_filter.mpr ⟨hlater, by simp [hsame]⟩, rfl⟩)
    · exact (h i).sublist (((List.sublist_cons_self _ _).filter _).map _)

/-- Every package that arrives over a lossy channel that keeps the order of each sender is
accepted and restores its message. -/
theorem delivered_packages_accepted {ι : Type} [DecidableEq ι] (hgcm : Opens gcm key)
    (ids : ι → BitVec 32) (hids : Function.Injective ids)
    (hrange : ∀ i, (ids i).toNat < maxBaseStations) (salt : BitVec 32) (rawKey : List Byte)
    (blank : ι → CommsecCtx gcm) (replySalt : ι → BitVec 32) (replyKey : ι → List Byte)
    (blankReceiver : CommsecCtx gcm) (receiverId receiverSalt : BitVec 32)
    (receiverKey : List Byte) (calls : ι → List SendCall)
    (hlen : ∀ i, ∀ call ∈ calls i, 1 ≤ call.msgLen) (deliveries : List (ι × Sent))
    (horder : ∀ i, ((deliveries.filter (·.1 = i)).map Prod.snd).Sublist
      (sentPackages (securePkgInit (blank i) (ids i) (replySalt i) (replyKey i) salt rawKey)
        (calls i))) :
    List.Forall₂ (fun d out => out.1 = .succeed ∧ out.2.length = d.2.pkg.length ∧
        (out.2.drop headerLen).take (securePkgSizeOfMessage out.2.length).toNat = d.2.message)
      deliveries
      (outputs decStep
        (securePkgInit blankReceiver receiverId salt rawKey receiverSalt receiverKey)
        (deliveries.map fun d => d.2.pkg)) := by
  have hsent (i : ι) := sentPackages_genuine hgcm (calls i)
    (securePkgInit (blank i) (ids i) (replySalt i) (replyKey i) salt rawKey) (hlen i)
  have hmem : ∀ d ∈ deliveries, d.2 ∈ sentPackages
      (securePkgInit (blank d.1) (ids d.1) (replySalt d.1) (replyKey d.1) salt rawKey)
      (calls d.1) := by
    intro d hd
    apply (horder d.1).subset
    exact List.mem_map.mpr ⟨d, List.mem_filter.mpr ⟨hd, by simp⟩, rfl⟩
  apply outputs_decStep_genuine hgcm hids hrange deliveries _ rfl rfl
  · intro d hd
    rw [securePkgInit, hgcm.key_init _ _ (blank d.1).encCtx]
    exact ((hsent d.1).1 d.2 (hmem d hd)).2
  · exact pairwise_of_filter fun i => (hsent i).2.sublist (horder i)
  · intro d hd
    have hfirst : 1 ≤ theirCounter d.2.pkg := ((hsent d.1).1 d.2 (hmem d hd)).1
    change 0 < theirCounter d.2.pkg
    bv_omega

end Keyed

/-- Adding the keystream twice gives the message back. -/
theorem sampleCrypt_sampleCrypt (iv msg : List Byte) : sampleCrypt iv (sampleCrypt iv msg) = msg := by
  simp only [sampleCrypt, List.mapIdx_mapIdx]
  apply List.ext_getElem
  · simp
  · intro i _ _
    simp only [List.getElem_mapIdx, Function.comp_apply, BitVec.xor_assoc, BitVec.xor_self,
      BitVec.xor_zero]

/-- The two sample messages of station 3, each encrypted in place behind a gap of eight bytes. -/
def sampleCalls : List SendCall :=
  let mem := writeRange (fun _ => 0) 8 [0xFE, 0x09, 0x4E]
  [⟨mem, 0, 8, 3⟩, ⟨mem, 0, 8, 3⟩]

/-- The package of the second sample message. -/
def secondSent : Sent where
  pkg := [0, 0, 0, 3, 0, 0, 0, 2, 0xB7, 0xB5, 0x91, 0xC0, 0x7D, 0xCC, 0xE9, 0xBB, 0x2F, 0xD9, 0x12]
  message := [0xFE, 0x09, 0x4E]

/-- The second sample message is accepted although the first one was dropped. -/
theorem secondSent_accepted :
    List.Forall₂ (fun d out => out.1 = .succeed ∧ out.2.length = d.2.pkg.length ∧
        (out.2.drop headerLen).take (securePkgSizeOfMessage out.2.length).toNat = d.2.message)
      [((), secondSent)] (outputs decStep sampleReceiver [secondSent.pkg]) := by
  have hgcm : Opens sampleGcm id :=
    ⟨fun _ _ _ => rfl, fun _ _ _ => rfl, fun _ _ _ _ => rfl,
      fun iv msg _ _ _ _ => ⟨if_pos rfl, sampleCrypt_sampleCrypt iv msg⟩⟩
  have hsublist : [secondSent].Sublist
      (sentPackages (securePkgInit blankCtx 3 284920 sampleKey.reverse 9219834 sampleKey)
        sampleCalls) := by decide
  exact delivered_packages_accepted hgcm (fun _ : Unit => 3) (fun _ _ _ => rfl)
    (fun _ => by decide) 9219834 sampleKey (fun _ => blankCtx) (fun _ => 284920)
    (fun _ => sampleKey.reverse) blankCtx 0 284920 sampleKey.reverse (fun _ => sampleCalls)
    (fun _ => by simp [sampleCalls]) [((), secondSent)] (fun _ => hsublist)

end CamkesVm.Commsec
