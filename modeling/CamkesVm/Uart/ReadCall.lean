import CamkesVm.Machine.Memory
import CamkesVm.Machine.Run

/-!
# Reading from the UART

`uart_read` asks the serial device for a number of bytes and waits for a semaphore. The device completes
a request with a callback, possibly with fewer bytes than requested after a timeout. The callback then
requests what is missing, and posts the semaphore when nothing is missing or the device refuses.

A call is a machine whose steps are the callbacks, each with the number of bytes that came and the answer
of the device to a further request, and the return of the wait. The bytes are those of a stream that goes
on for ever. The requests and the posts are recorded in the state; how many bytes came and which further
requests were refused is read off the steps.
-/

namespace CamkesVm.Uart

open CamkesVm.Machine

/-- The structure `uart_token`, with the pointer as an address. -/
structure UartToken where
  curBytes : BitVec 32
  reqBytes : BitVec 32
  buf : ℕ

/-- A call of `uart_read`: its token, the memory, how much of the stream has come, the request the device
works on, the semaphore, and what the call has done and returned. -/
structure ReadCall where
  token : UartToken
  memory : ℕ → Byte
  received : ℕ
  outstanding : Option (ℕ × BitVec 32)
  readSem : ℕ
  posts : ℕ
  requests : List (ℕ × BitVec 32)
  result : Option ℤ

namespace ReadCall

variable (s : ReadCall)

/-- The function `ps_cdev_read` for a request of `len` bytes to be stored at `addr`: the device refuses
it with a negative answer. -/
def psCdevRead (addr : ℕ) (len : BitVec 32) (ret : ℤ) : ReadCall :=
  { s with
    outstanding := if ret < 0 then none else some (addr, len)
    requests := s.requests ++ [(addr, len)] }

/-- The function `read_sem_post`. -/
def readSemPost : ReadCall :=
  { s with
    readSem := s.readSem + 1
    posts := s.posts + 1 }

/-- The device completes a request at `addr` with the next bytes of the stream. -/
def store (stream : ℕ → Byte) (addr bytes : ℕ) : ReadCall :=
  { s with
    memory := writeRange s.memory addr (readRange stream s.received bytes)
    received := s.received + bytes
    outstanding := none }

/-- The token counts the bytes that came. -/
def advance (bytes : BitVec 32) : ReadCall :=
  { s with
    token := { s.token with
      curBytes := s.token.curBytes + bytes
      buf := s.token.buf + bytes.toNat } }

/-- The function `read_callback`, with the answer to the request it may make. -/
def readCallback (bytes : BitVec 32) (ret : ℤ) : ReadCall :=
  let s := s.advance bytes
  if s.token.curBytes < s.token.reqBytes then
    let s := s.psCdevRead s.token.buf (s.token.reqBytes - s.token.curBytes) ret
    if ret < 0 then s.readSemPost else s
  else s.readSemPost

/-- The wait for the semaphore returns, and so does the call. -/
def wake : Option ReadCall :=
  if 0 < s.readSem ∧ s.result = none then
    some { s with
      readSem := s.readSem - 1
      result := some s.token.curBytes.toInt }
  else none

end ReadCall

/-- A callback of the device, or the return of the wait. -/
inductive ReadLabel
  | callback (bytes : BitVec 32) (ret : ℤ)
  | wake

/-- A step of the machine. A callback completes the outstanding request with at most the bytes it asked
for. -/
def readStep (stream : ℕ → Byte) (s : ReadCall) : ReadLabel → Option (Unit × ReadCall)
  | .callback bytes ret =>
    match s.outstanding with
    | some (addr, len) =>
      if bytes ≤ len then some ((), (s.store stream addr bytes.toNat).readCallback bytes ret) else none
    | none => none
  | .wake => s.wake.map ((), ·)

/-- How many bytes came in the given steps. -/
def bytesCame (labels : List ReadLabel) : ℕ :=
  labels.foldl (fun
    | came, .callback bytes _ => came + bytes.toNat
    | came, .wake => came) 0

/-- In the given steps the device refused a further request: at a callback after which bytes were still
missing it answered with an error. -/
def Refused (rsize : BitVec 32) (labels : List ReadLabel) : Prop :=
  ∃ before bytes ret after, labels = before ++ .callback bytes ret :: after ∧
    bytesCame before + bytes.toNat < rsize.toNat ∧ ret < 0

section Labels

variable {rsize : BitVec 32} {labels : List ReadLabel}

/-- Without events no bytes came. -/
@[simp] theorem bytesCame_nil : bytesCame [] = 0 := rfl

/-- A callback adds its bytes. -/
@[simp] theorem bytesCame_callback (bytes : BitVec 32) (ret : ℤ) :
    bytesCame (labels ++ [.callback bytes ret]) = bytesCame labels + bytes.toNat := by
  simp [bytesCame]

/-- The return of the wait brings no bytes. -/
@[simp] theorem bytesCame_wake : bytesCame (labels ++ [.wake]) = bytesCame labels := by
  simp [bytesCame]

/-- After one more step a request was refused before or is refused in that step. -/
theorem refused_append_iff {label : ReadLabel} : Refused rsize (labels ++ [label]) ↔
    Refused rsize labels ∨ ∃ bytes ret, label = .callback bytes ret ∧
      bytesCame labels + bytes.toNat < rsize.toNat ∧ ret < 0 := by
  constructor
  · rintro ⟨before, bytes, ret, after, hlabels, hmissing, hret⟩
    obtain rfl | ⟨after, last, rfl⟩ := List.eq_nil_or_concat' after
    · obtain ⟨rfl, hlast⟩ := List.append_inj' hlabels rfl
      exact Or.inr ⟨bytes, ret, by simpa using hlast, hmissing, hret⟩
    · refine Or.inl ⟨before, bytes, ret, after, ?_, hmissing, hret⟩
      rw [← List.cons_append, ← List.append_assoc] at hlabels
      exact (List.append_inj' hlabels rfl).1
  · rintro (⟨before, bytes, ret, after, rfl, hmissing, hret⟩ | ⟨bytes, ret, rfl, hmissing, hret⟩)
    · exact ⟨before, bytes, ret, after ++ [label], by simp, hmissing, hret⟩
    · exact ⟨labels, bytes, ret, [], rfl, hmissing, hret⟩

end Labels

section Collecting

variable {stream memory : ℕ → Byte} {received c : ℕ} {rsize : BitVec 32} {labels : List ReadLabel}
  {s : ReadCall}

/-- What has come so far: the token counts it, the buffer starts with it, and the rest of the memory and
all requests keep to the buffer. -/
structure Collected (stream memory : ℕ → Byte) (received c : ℕ) (rsize : BitVec 32) (s : ReadCall) :
    Prop where
  reqBytes : s.token.reqBytes = rsize
  curBytes : s.token.curBytes.toNat ≤ rsize.toNat
  buf : s.token.buf = c + s.token.curBytes.toNat
  position : s.received = received + s.token.curBytes.toNat
  stored : readRange s.memory c s.token.curBytes.toNat =
    readRange stream received s.token.curBytes.toNat
  outside : ∀ a, a < c ∨ c + rsize.toNat ≤ a → s.memory a = memory a
  requests : ∀ q ∈ s.requests, c ≤ q.1 ∧ q.1 + q.2.toNat ≤ c + rsize.toNat

/-- Only the token, the memory, the stream and the requests matter. -/
theorem Collected.of_fields (h : Collected stream memory received c rsize s) {t : ReadCall}
    (htoken : t.token = s.token) (hmemory : t.memory = s.memory) (hreceived : t.received = s.received)
    (hrequests : t.requests = s.requests) : Collected stream memory received c rsize t := by
  obtain ⟨_, _, _, _, _, _, _⟩ := h
  constructor <;> simp only [htoken, hmemory, hreceived, hrequests] <;> assumption

/-- The rest of the buffer in numbers. -/
theorem Collected.toNat_rest (h : Collected stream memory received c rsize s) :
    (rsize - s.token.curBytes).toNat = rsize.toNat - s.token.curBytes.toNat :=
  BitVec.toNat_sub_of_le h.curBytes

/-- The bytes of a completed request extend what has come, and the token counts them. -/
theorem Collected.store_advance (h : Collected stream memory received c rsize s) {bytes : BitVec 32}
    (hbytes : bytes ≤ rsize - s.token.curBytes) :
    let t := (s.store stream s.token.buf bytes.toNat).advance bytes
    Collected stream memory received c rsize t ∧
      t.token.curBytes.toNat = s.token.curBytes.toNat + bytes.toNat := by
  have hle : s.token.curBytes.toNat + bytes.toNat ≤ rsize.toNat := by
    have hrest : bytes.toNat ≤ (rsize - s.token.curBytes).toNat := hbytes
    rw [h.toNat_rest] at hrest
    have hcur := h.curBytes
    omega
  have hcur : (s.token.curBytes + bytes).toNat = s.token.curBytes.toNat + bytes.toNat :=
    BitVec.toNat_add_of_lt (Nat.lt_of_le_of_lt hle rsize.isLt)
  refine ⟨⟨h.reqBytes, ?_, ?_, ?_, ?_, ?_, h.requests⟩, hcur⟩
  · change (s.token.curBytes + bytes).toNat ≤ rsize.toNat
    rw [hcur]
    exact hle
  · change s.token.buf + bytes.toNat = c + (s.token.curBytes + bytes).toNat
    rw [hcur, h.buf, Nat.add_assoc]
  · change s.received + bytes.toNat = received + (s.token.curBytes + bytes).toNat
    rw [hcur, h.position, Nat.add_assoc]
  · -- The first part of the buffer is not written, the second is what has just come.
    change readRange (writeRange s.memory s.token.buf (readRange stream s.received bytes.toNat)) c
        (s.token.curBytes + bytes).toNat = readRange stream received (s.token.curBytes + bytes).toNat
    have hfirst := readRange_writeRange_of_disjoint s.memory c s.token.curBytes.toNat s.token.buf
      (readRange stream s.received bytes.toNat) (.inl (Nat.le_of_eq h.buf.symm))
    have hsecond := readRange_writeRange s.memory s.token.buf (readRange stream s.received bytes.toNat)
    rw [readRange_length] at hsecond
    rw [hcur, readRange_add, readRange_add, hfirst, h.stored, ← h.buf, hsecond, h.position]
  · intro a ha
    change writeRange s.memory s.token.buf (readRange stream s.received bytes.toNat) a = memory a
    rw [writeRange, dif_neg, h.outside a ha]
    rw [readRange_length, h.buf]
    omega

/-- A request for the rest of the buffer keeps to the buffer. -/
theorem Collected.psCdevRead (h : Collected stream memory received c rsize s) (ret : ℤ) :
    Collected stream memory received c rsize
      (s.psCdevRead s.token.buf (s.token.reqBytes - s.token.curBytes) ret) := by
  refine ⟨h.reqBytes, h.curBytes, h.buf, h.position, h.stored, h.outside, ?_⟩
  intro q hq
  rcases List.mem_append.mp hq with hq | hq
  · exact h.requests q hq
  · obtain rfl := List.mem_singleton.mp hq
    have hcur := h.curBytes
    rw [h.reqBytes, h.toNat_rest, h.buf]
    omega

/-- Where a call is after the given steps: the device works on a request for the rest of the buffer, or the
semaphore has been posted, or the call has returned. -/
inductive Phase (rsize : BitVec 32) (labels : List ReadLabel) (s : ReadCall) : Prop
  | waiting (outstanding : s.outstanding = some (s.token.buf, rsize - s.token.curBytes))
      (posts : s.posts = 0) (readSem : s.readSem = 0) (result : s.result = none)
      (missing : bytesCame labels < rsize.toNat) (accepted : ¬ Refused rsize labels)
  | posted (outstanding : s.outstanding = none) (posts : s.posts = 1) (readSem : s.readSem = 1)
      (result : s.result = none) (settled : bytesCame labels = rsize.toNat ∨ Refused rsize labels)
  | returned (outstanding : s.outstanding = none) (posts : s.posts = 1)
      (result : s.result = some s.token.curBytes.toInt)
      (settled : bytesCame labels = rsize.toNat ∨ Refused rsize labels)

/-- What holds of a call after the given steps. -/
structure ReadInv (stream memory : ℕ → Byte) (received c : ℕ) (rsize : BitVec 32)
    (labels : List ReadLabel) (s : ReadCall) : Prop where
  collected : Collected stream memory received c rsize s
  counted : s.token.curBytes.toNat = bytesCame labels
  phase : Phase rsize labels s

/-- The first post of the semaphore, with no request outstanding. -/
theorem Phase.of_post (hnone : s.outstanding = none) (hposts : s.posts = 0) (hsem : s.readSem = 0)
    (hresult : s.result = none) (hover : bytesCame labels = rsize.toNat ∨ Refused rsize labels) :
    Phase rsize labels s.readSemPost := by
  refine .posted hnone ?_ ?_ hresult hover
  · change s.posts + 1 = 1
    rw [hposts]
  · change s.readSem + 1 = 1
    rw [hsem]

/-- The callback requests the rest, or posts the semaphore. -/
theorem ReadInv.readCallback (h : ReadInv stream memory received c rsize labels s)
    (hposts : s.posts = 0) (hsem : s.readSem = 0) (hresult : s.result = none)
    (haccepted : ¬ Refused rsize labels) {bytes : BitVec 32}
    (hbytes : bytes ≤ rsize - s.token.curBytes) (ret : ℤ) :
    ReadInv stream memory received c rsize (labels ++ [.callback bytes ret])
      ((s.store stream s.token.buf bytes.toNat).readCallback bytes ret) := by
  obtain ⟨hcollected, hcounted⟩ := h.collected.store_advance hbytes
  rw [h.counted, ← bytesCame_callback bytes ret] at hcounted
  unfold ReadCall.readCallback
  generalize hs : (s.store stream s.token.buf bytes.toNat).advance bytes = t at hcollected hcounted
  obtain ⟨hnone, hposts', hsem', hresult'⟩ :
      t.outstanding = none ∧ t.posts = 0 ∧ t.readSem = 0 ∧ t.result = none := by
    rw [← hs]
    exact ⟨rfl, hposts, hsem, hresult⟩
  dsimp only
  split
  next hmissing =>
    have hless : bytesCame (labels ++ [.callback bytes ret]) < rsize.toNat := by
      rw [← hcounted, ← hcollected.reqBytes]
      exact hmissing
    have hrequest := hcollected.psCdevRead ret
    split
    next hret =>
      -- Bytes are missing and the device has refused, so the post ends the call.
      have hrefused : Refused rsize (labels ++ [.callback bytes ret]) :=
        refused_append_iff.mpr (Or.inr ⟨bytes, ret, rfl, by rwa [bytesCame_callback] at hless, hret⟩)
      exact ⟨hrequest.of_fields rfl rfl rfl rfl, hcounted,
        .of_post (if_pos hret) hposts' hsem' hresult' (Or.inr hrefused)⟩
    next hret =>
      have haccepted' : ¬ Refused rsize (labels ++ [.callback bytes ret]) := by
        rw [refused_append_iff, not_or]
        refine ⟨haccepted, ?_⟩
        rintro ⟨_, _, hlabel, -, hneg⟩
        obtain ⟨rfl, rfl⟩ := ReadLabel.callback.inj hlabel
        exact hret hneg
      refine ⟨hrequest, hcounted, .waiting ?_ hposts' hsem' hresult' hless haccepted'⟩
      rw [← hcollected.reqBytes]
      exact if_neg hret
  next hfull =>
    have hall : bytesCame (labels ++ [.callback bytes ret]) = rsize.toNat := by
      rw [hcollected.reqBytes] at hfull
      rw [← hcounted]
      exact Nat.le_antisymm hcollected.curBytes (Nat.not_lt.mp hfull)
    exact ⟨hcollected.of_fields rfl rfl rfl rfl, hcounted,
      .of_post hnone hposts' hsem' hresult' (Or.inl hall)⟩

/-- Every step of a call keeps the invariant. -/
theorem ReadInv.step {label : ReadLabel} {o : Unit} {t : ReadCall}
    (h : ReadInv stream memory received c rsize labels s)
    (hstep : readStep stream s label = some (o, t)) :
    ReadInv stream memory received c rsize (labels ++ [label]) t := by
  cases label with
  | callback bytes ret =>
    cases h.phase with
    | waiting houtstanding hposts hsem hresult _ haccepted =>
      simp only [readStep, houtstanding, Option.ite_none_right_eq_some, Option.some.injEq,
        Prod.mk.injEq] at hstep
      obtain ⟨hbytes, _, rfl⟩ := hstep
      exact h.readCallback hposts hsem hresult haccepted hbytes ret
    | posted houtstanding =>
      simp [readStep, houtstanding] at hstep
    | returned houtstanding =>
      simp [readStep, houtstanding] at hstep
  | wake =>
    simp only [readStep, ReadCall.wake, Option.map_eq_some_iff, Option.ite_none_right_eq_some,
      Option.some.injEq] at hstep
    obtain ⟨_, ⟨⟨hpos, hresult⟩, rfl⟩, hpair⟩ := hstep
    obtain ⟨_, rfl⟩ := Prod.mk.inj hpair
    refine ⟨h.collected.of_fields rfl rfl rfl rfl, h.counted.trans bytesCame_wake.symm, ?_⟩
    cases h.phase with
    | waiting _ _ hsem =>
      rw [hsem] at hpos
      exact absurd hpos (Nat.lt_irrefl 0)
    | posted houtstanding hposts _ _ hover =>
      refine .returned houtstanding hposts rfl ?_
      rw [bytesCame_wake, refused_append_iff]
      exact hover.imp_right Or.inl
    | returned _ _ hreturned =>
      rw [hreturned] at hresult
      cases hresult

end Collecting

end CamkesVm.Uart
