import CamkesVm.Aeslib.Gcm
import CamkesVm.Aeslib.GcmMode

/-!
# Hashing in pieces

A call that goes on hashing is the run of a machine that takes one byte at a time: it multiplies when a
block is full and another byte comes, and otherwise adds the byte at the next place. The loops over
words and blocks, for either alignment, are shortcuts of this machine. What a sequence of calls leaves
thus depends on the bytes only, and is the standard's hash of them once the last block is multiplied.
-/

namespace CamkesVm.Aeslib

open CamkesVm.Machine

section ByteMachine

variable (mul : Block → Block)

/-- Hash one byte. -/
def hashByte (s : Filling) (b : Byte) : Filling :=
  xorByte (if s.bPos = 16 then ⟨mul s.buf, 0⟩ else s) [b]

/-- Add bytes to a block from a place on. -/
def overlay (buf : Block) (p : ℕ) (piece : List Byte) : Block :=
  Vector.ofFn fun i => buf.get i ^^^ if p ≤ i then piece.getD (i - p) 0 else 0

/-- No bytes leave the buffer as it is. -/
theorem overlay_nil (buf : Block) (p : ℕ) : overlay buf p [] = buf := by
  apply vector_ext
  intro i
  rw [overlay, get_ofFn, List.getD_nil, ite_self]
  exact BitVec.xor_zero

/-- At the start of the buffer the bytes are added as a block. -/
theorem overlay_zero (buf : Block) (piece : List Byte) :
    overlay buf 0 piece = xorBlock buf (listBlock piece) := by
  apply vector_ext
  intro i
  rw [xorBlock, overlay, get_ofFn, get_ofFn, if_pos (Nat.zero_le _), listBlock, get_ofFn, Nat.sub_zero]

/-- The first byte of a piece. -/
theorem overlay_cons (buf : Block) {p : ℕ} (hp : p < 16) (b : Byte) (rest : List Byte) :
    overlay buf p (b :: rest) =
      overlay (put buf (place p) (buf.get (place p) ^^^ b)) (p + 1) rest := by
  apply vector_ext
  intro i
  simp only [overlay, get_ofFn, get_put]
  obtain hlt | heq | hgt := Nat.lt_trichotomy i p
  · have hne : i ≠ place p := fun h => by rw [h, val_place hp] at hlt; omega
    rw [if_neg hne, if_neg (by omega), if_neg (by omega)]
  · have hi : i = place p := by rw [← heq, place_val]
    rw [if_pos hi, if_pos (by omega), if_neg (by omega), heq, Nat.sub_self, hi]
    exact BitVec.xor_zero.symm
  · have hne : i ≠ place p := fun h => by rw [h, val_place hp] at hgt; omega
    have hsub : (i : ℕ) - p = (i - (p + 1)) + 1 := by omega
    rw [if_neg hne, if_pos (by omega), if_pos (by omega), hsub, List.getD_cons_succ]

/-- Bytes added one by one to a block they fit in. -/
theorem foldl_xorByte (piece : List Byte) (buf : Block) {p : ℕ} (hfits : p + piece.length ≤ 16) :
    piece.foldl (fun s b => xorByte s [b]) ⟨buf, p⟩ = ⟨overlay buf p piece, p + piece.length⟩ := by
  induction piece generalizing buf p with
  | nil => rw [overlay_nil]; rfl
  | cons b rest ih =>
    rw [List.length_cons] at hfits
    have hstep : xorByte ⟨buf, p⟩ [b] = ⟨put buf (place p) (buf.get (place p) ^^^ b), p + 1⟩ := rfl
    rw [List.foldl_cons, hstep, ih _ (by omega), overlay_cons buf (by omega), List.length_cons,
      Nat.add_assoc p, Nat.add_comm 1]

/-- Bytes that fit in the open block are added to it. -/
theorem foldl_hashByte_of_fits (piece : List Byte) (buf : Block) {p : ℕ} (hfits : p + piece.length ≤ 16) :
    piece.foldl (hashByte mul) ⟨buf, p⟩ = ⟨overlay buf p piece, p + piece.length⟩ := by
  have hopen (s : Filling) (hs : s.bPos + piece.length ≤ 16) :
      piece.foldl (hashByte mul) s = piece.foldl (fun s b => xorByte s [b]) s := by
    clear hfits
    induction piece generalizing s with
    | nil => rfl
    | cons b rest ih =>
      rw [List.length_cons] at hs
      rw [List.foldl_cons, List.foldl_cons, hashByte, if_neg (by omega)]
      exact ih _ (by change s.bPos + 1 + rest.length ≤ 16; omega)
  rw [hopen ⟨buf, p⟩ hfits, foldl_xorByte piece buf hfits]

/-- A full block is multiplied when a byte comes. -/
theorem foldl_hashByte_full (buf : Block) {data : List Byte} (hdata : data ≠ []) :
    data.foldl (hashByte mul) ⟨buf, 16⟩ = data.foldl (hashByte mul) ⟨mul buf, 0⟩ := by
  cases data with
  | nil => exact absurd rfl hdata
  | cons b rest => rfl

end ByteMachine

section Runs

variable {mul : Block → Block} {h : GF128}

/-- The place behind `c` bytes of a message: a full block is left until the next byte. -/
def filled (c : ℕ) : ℕ := if c = 0 then 0 else (c - 1) % 16 + 1

/-- A block that is not full holds the remainder. -/
theorem filled_of_mod_ne {c : ℕ} (hc : c = 0 ∨ c % 16 ≠ 0) : filled c = c % 16 := by
  rw [filled]
  split_ifs <;> omega

/-- After whole blocks the last one is full. -/
theorem filled_of_mod_eq {c : ℕ} (hc : c ≠ 0) (hmod : c % 16 = 0) : filled c = 16 := by
  rw [filled, if_neg hc]
  omega

/-- A byte in an open block. -/
theorem hashByte_open {s : Filling} {c : ℕ} (hs : s.bPos = filled c) (hc : c = 0 ∨ c % 16 ≠ 0) (b : Byte) :
    hashByte mul s b = ⟨xorBlock s.buf (byteBlock (place c) b), filled (c + 1)⟩ := by
  rw [filled_of_mod_ne hc] at hs
  have hplace : place s.bPos = place c := Fin.ext (by rw [hs]; exact Nat.mod_mod c 16)
  have hnext : s.bPos + 1 = filled (c + 1) := by
    rw [hs, filled, if_neg (Nat.succ_ne_zero c), Nat.add_sub_cancel]
  rw [hashByte, if_neg (by omega), xorByte, hplace, hnext, ← put_xor_eq]
  rfl

/-- A byte behind a full block. -/
theorem hashByte_full {s : Filling} {c : ℕ} (hs : s.bPos = filled c) (hc : c ≠ 0) (hmod : c % 16 = 0)
    (b : Byte) :
    hashByte mul s b = ⟨xorBlock (mul s.buf) (byteBlock (place c) b), filled (c + 1)⟩ := by
  rw [filled_of_mod_eq hc hmod] at hs
  have hplace : place 0 = place c := Fin.ext hmod.symm
  have hnext : 0 + 1 = filled (c + 1) := by
    rw [filled, if_neg (Nat.succ_ne_zero c), Nat.add_sub_cancel, hmod]
  rw [hashByte, if_pos hs, xorByte, hplace, hnext, ← put_xor_eq]
  rfl

/-- The position after a piece depends on the number of bytes only. -/
theorem bPos_foldl_hashByte (mul : Block → Block) {s : Filling} {c : ℕ} (hs : s.bPos = filled c) (data : List Byte) :
    (data.foldl (hashByte mul) s).bPos = filled (c + data.length) := by
  induction data generalizing s c with
  | nil => exact hs
  | cons b rest ih =>
    have hstep : (hashByte mul s b).bPos = filled (c + 1) := by
      by_cases hc : c = 0 ∨ c % 16 ≠ 0
      · rw [hashByte_open hs hc]
      · rw [hashByte_full hs (by omega) (by omega)]
    rw [List.foldl_cons, ih hstep, List.length_cons, Nat.add_assoc, Nat.add_comm 1]

/-- The state of the machine after the bytes of a message: the hash of the blocks before the last one,
with the last one added to it. -/
theorem blockVal_foldl_hashByte (hmul : ∀ a, blockVal (mul a) = blockVal a * h) (data : List Byte) :
    blockVal (data.foldl (hashByte mul) ⟨zeroBlock, 0⟩).buf =
      ghash h ((List.range ((data.length - 1) / 16)).map (padBlock data)) +
        blockVal (padBlock data ((data.length - 1) / 16)) := by
  induction data using List.reverseRecOn with
  | nil => simp [padBlock_of_le]
  | append_singleton data b ih =>
    have hpos := bPos_foldl_hashByte mul (s := ⟨zeroBlock, 0⟩) (c := 0) rfl data
    rw [Nat.zero_add] at hpos
    have hsame : (List.range (data.length / 16)).map (padBlock (data ++ [b])) =
        (List.range (data.length / 16)).map (padBlock data) := by
      apply List.map_congr_left
      intro k hk
      exact padBlock_concat_of_lt (List.mem_range.mp hk) b
    rw [List.foldl_append, List.foldl_cons, List.foldl_nil, List.length_append, List.length_singleton,
      Nat.add_sub_cancel, hsame, padBlock_concat, blockVal_xorBlock]
    by_cases hc : data.length = 0 ∨ data.length % 16 ≠ 0
    · have hlast : (data.length - 1) / 16 = data.length / 16 := by omega
      rw [hashByte_open hpos hc, blockVal_xorBlock, ih, hlast, add_assoc]
    · have hlast : data.length / 16 = (data.length - 1) / 16 + 1 := by omega
      rw [hashByte_full hpos (by omega) (by omega), blockVal_xorBlock, hmul, ih,
        padBlock_of_le (by omega : data.length ≤ 16 * (data.length / 16)), blockVal_zeroBlock, zero_add,
        hlast, List.range_succ, List.map_append, List.map_singleton, ghash_concat]

/-- The last multiplication gives the hash of the message. -/
theorem blockVal_mul_hashed (hmul : ∀ a, blockVal (mul a) = blockVal a * h) (data : List Byte) :
    blockVal (mul (data.foldl (hashByte mul) ⟨zeroBlock, 0⟩).buf) = ghash h (toBlocks data) := by
  rw [hmul, blockVal_foldl_hashByte hmul, toBlocks]
  by_cases hdata : data.length = 0
  · rw [hdata, padBlock_of_le (by omega)]
    simp
  · have hcount : (data.length + 15) / 16 = (data.length - 1) / 16 + 1 := by omega
    rw [hcount, List.range_succ, List.map_append, List.map_singleton, ghash_concat]

end Runs

section Loops

variable (mul : Block → Block)

/-- A byte at an open place. -/
theorem xorByte_eq {s : Filling} {piece : List Byte} (hs : s.bPos < 16) (hpiece : piece.length = 1) :
    xorByte s piece = piece.foldl (hashByte mul) s := by
  obtain ⟨b, rfl⟩ := List.length_eq_one_iff.mp hpiece
  rw [List.foldl_cons, List.foldl_nil, hashByte, if_neg (by omega)]

/-- A word at an open place. -/
theorem xorUnit_eq {s : Filling} {piece : List Byte} (hs : s.bPos ≤ 12) (hpiece : piece.length = 4) :
    xorUnit s piece = piece.foldl (hashByte mul) s := by
  have hbuf : storeWord s.buf s.bPos (loadWord s.buf s.bPos ^^^ listWord piece) =
      overlay s.buf s.bPos piece := by
    apply vector_ext
    intro i
    rw [get_storeWord s.buf hs, overlay, get_ofFn]
    by_cases hin : s.bPos ≤ i ∧ i < s.bPos + 4
    · have hk := byteAt_loadWord s.buf s.bPos ⟨i - s.bPos, by omega⟩
      have hw := byteAt_listWord piece ⟨i - s.bPos, by omega⟩
      have hi : s.bPos + (i - s.bPos) = i := by omega
      dsimp only at hk hw
      rw [if_pos hin, if_pos hin.1, byteAt_xor, hk, hw, hi, place_val]
    · rw [if_neg hin]
      split_ifs with hle
      · rw [List.getD_eq_default _ _ (by omega)]
        exact BitVec.xor_zero.symm
      · exact BitVec.xor_zero.symm
  rw [foldl_hashByte_of_fits mul piece s.buf (by omega), hpiece, xorUnit, hbuf]

/-- A block behind a full one. -/
theorem xorBlock_eq (buf : Block) {piece : List Byte} (hpiece : piece.length = 16) :
    (⟨xorBlock (mul buf) (listBlock piece), 16⟩ : Filling) = piece.foldl (hashByte mul) ⟨buf, 16⟩ := by
  have hne : piece ≠ [] := List.ne_nil_of_length_eq_add_one hpiece
  rw [foldl_hashByte_full mul buf hne, foldl_hashByte_of_fits mul piece _ (by omega), hpiece, overlay_zero]

end Loops

section Calls

variable (ctx : GcmCtx)

/-- The machine with the hash key of a context. -/
abbrev hashStep : Filling → Byte → Filling := hashByte fun a => gfMulHh a ctx

/-- The state in which the machine is when it has run over some bytes. -/
def RunOver (start : Filling) (done : List Byte) (s : Filling) : Prop :=
  s = done.foldl (hashStep ctx) start ∧ s.bPos ≤ 16

variable {ctx} {start : Filling}

/-- A further piece extends the run over the bytes. -/
theorem RunOver.extend {done piece : List Byte} {s s' : Filling} (h : RunOver ctx start done s)
    (hs' : s' = piece.foldl (hashStep ctx) s) (hle : s'.bPos ≤ 16) :
    RunOver ctx start (done ++ piece) s' := by
  refine ⟨?_, hle⟩
  rw [hs', h.1, List.foldl_append]

/-- Bytes up to a place that stops the loop. -/
theorem drain_bytes (ctx : GcmCtx) (more : Filling → Bool) (hmore : ∀ s, s.bPos ≤ 16 → more s = true → s.bPos < 16)
    (hstart : start.bPos ≤ 16) (data : List Byte) :
    let r := drain 1 more xorByte start data
    ∃ done, done ++ r.2 = data ∧ RunOver ctx start done r.1 ∧ (r.2.length < 1 ∨ more r.1 = false) := by
  have hnone : RunOver ctx start [] start := ⟨rfl, hstart⟩
  exact drain_invariant (RunOver ctx start) (by decide)
    (fun done s piece hs hm hlen => hs.extend (xorByte_eq _ (hmore s hs.2 hm) hlen) (hmore s hs.2 hm))
    hnone data

/-- Words from a place divisible by four, up to the end of the block. -/
theorem drain_words {done : List Byte} {s : Filling} (hs : RunOver ctx start done s)
    (hmod : s.bPos % 4 = 0) (data : List Byte) :
    let r := drain 4 (fun s => s.bPos ≤ 12) xorUnit s data
    ∃ done', done' ++ r.2 = done ++ data ∧ RunOver ctx start done' r.1 ∧
      (r.2.length < 16 ∨ r.1.bPos = 16) := by
  have hword (done : List Byte) (s : Filling) (piece : List Byte)
      (hs : RunOver ctx start done s ∧ s.bPos % 4 = 0) (hm : decide (s.bPos ≤ 12) = true)
      (hlen : piece.length = 4) :
      RunOver ctx start (done ++ piece) (xorUnit s piece) ∧ (xorUnit s piece).bPos % 4 = 0 := by
    have hopen : s.bPos ≤ 12 := of_decide_eq_true hm
    have hnext : (xorUnit s piece).bPos = s.bPos + 4 := rfl
    exact ⟨hs.1.extend (xorUnit_eq _ hopen hlen) (by omega), by omega⟩
  obtain ⟨done', hdone, ⟨hrun, hmod⟩, hstop⟩ := drain_invariant
    (fun done s => RunOver ctx start done s ∧ s.bPos % 4 = 0) (by decide) hword ⟨hs, hmod⟩ data
  rw [decide_eq_false_iff_not] at hstop
  have hle := hrun.2
  exact ⟨done', hdone, hrun, by omega⟩

/-- Whole blocks behind a full one. -/
theorem drain_blocks (body : Filling → List Byte → Filling)
    (hbody : ∀ s piece, body s piece = ⟨xorBlock (gfMulHh s.buf ctx) (listBlock piece), s.bPos⟩)
    {done : List Byte} {s : Filling} (hs : RunOver ctx start done s) (data : List Byte)
    (hready : data.length < 16 ∨ s.bPos = 16) :
    let r := drain 16 (fun _ => true) body s data
    ∃ done', done' ++ r.2 = done ++ data ∧ RunOver ctx start done' r.1 := by
  by_cases hfull : s.bPos = 16
  · have hblock (done : List Byte) (s : Filling) (piece : List Byte)
        (hs : RunOver ctx start done s ∧ s.bPos = 16) (_ : true = true) (hlen : piece.length = 16) :
        RunOver ctx start (done ++ piece) (body s piece) ∧ (body s piece).bPos = 16 := by
      obtain ⟨buf, p⟩ := s
      obtain ⟨hrun, rfl⟩ : _ ∧ p = 16 := hs
      rw [hbody]
      exact ⟨hrun.extend (xorBlock_eq (fun a => gfMulHh a ctx) buf hlen) le_rfl, rfl⟩
    obtain ⟨done', hdone, ⟨hrun, _⟩, _⟩ := drain_invariant
      (fun done s => RunOver ctx start done s ∧ s.bPos = 16) (by decide) hblock ⟨hs, hfull⟩ data
    exact ⟨done', hdone, hrun⟩
  · rw [drain_of_not_more (by omega)]
    exact ⟨done, rfl, hs⟩

/-- The loop over unaligned data runs over the bytes it takes. -/
theorem authUnaligned_eq (hstart : start.bPos ≤ 16) (data : List Byte) :
    let r := authUnaligned ctx start data
    ∃ done, done ++ r.2 = data ∧ RunOver ctx start done r.1 := by
  obtain ⟨done, hdone, hrun, hstop⟩ := drain_bytes ctx (fun s => s.bPos < 16)
    (fun _ _ hm => of_decide_eq_true hm) hstart data
  rw [decide_eq_false_iff_not] at hstop
  have hle := hrun.2
  obtain ⟨done', hdone', hrun'⟩ := drain_blocks _ (fun _ _ => rfl) hrun
    (drain 1 (fun s => s.bPos < 16) xorByte start data).2 (by omega)
  exact ⟨done', hdone'.trans hdone, hrun'⟩

/-- The loops over aligned data run over the bytes they take. -/
theorem authAligned_eq (hstart : start.bPos ≤ 16) (data : List Byte) :
    let r := authAligned ctx start data
    ∃ done, done ++ r.2 = data ∧ RunOver ctx start done r.1 := by
  have hand (p : ℕ) : p &&& 3 = p % 4 := Nat.and_two_pow_sub_one_eq_mod p 2
  obtain ⟨done, hdone, hrun, hstop⟩ := drain_bytes ctx (fun s => s.bPos &&& 3 != 0)
    (fun s hs hm => by rw [bne_iff_ne, hand] at hm; omega) hstart data
  rw [bne_eq_false_iff_eq, hand] at hstop
  rw [authAligned]
  generalize drain 1 (fun s => s.bPos &&& 3 != 0) xorByte start data = head at hdone hrun hstop
  rw [← hdone]
  obtain hend | hmod := hstop
  · -- the data ended within a word
    rw [drain_of_not_more (n := 4) (by omega)]
    dsimp only
    rw [drain_of_not_more (by omega)]
    exact ⟨done, rfl, hrun⟩
  · obtain ⟨done', hdone', hrun', hready⟩ := drain_words hrun hmod head.2
    obtain ⟨done'', hdone'', hrun''⟩ := drain_blocks
      (fun s piece => ⟨xorBlockAligned (gfMulHh s.buf ctx) (listBlock piece), s.bPos⟩)
      (fun _ _ => by rw [xorBlockAligned_eq]) hrun' _ hready
    exact ⟨done'', hdone''.trans hdone', hrun''⟩

variable (ctx)

/-- The machine does not see whether a full block was multiplied before the call. -/
theorem foldl_hashStep_start {data : List Byte} (hdata : data ≠ []) (ghv : Block) (count : BitVec 32) :
    data.foldl (hashStep ctx) ⟨if count ≠ 0 ∧ (count &&& 15).toNat = 0 then gfMulHh ghv ctx else ghv,
      (count &&& 15).toNat⟩ = data.foldl (hashStep ctx) ⟨ghv, filled count.toNat⟩ := by
  have hpos : (count &&& 15).toNat = count.toNat % 16 := Nat.and_two_pow_sub_one_eq_mod count.toNat 4
  have hzero : count ≠ 0 ↔ count.toNat ≠ 0 := BitVec.toNat_ne_iff_ne.symm
  rw [hpos]
  by_cases hfull : count ≠ 0 ∧ count.toNat % 16 = 0
  · rw [if_pos hfull, hfull.2, filled_of_mod_eq (hzero.mp hfull.1) hfull.2]
    exact (foldl_hashByte_full (fun a => gfMulHh a ctx) ghv hdata).symm
  · rw [hzero] at hfull
    rw [if_neg (by rwa [hzero]), filled_of_mod_ne (by omega)]

/-- A call is the run of the machine over its data, whatever the alignment. -/
theorem gcmAuth_eq (gap : BitVec 32) (data : List Byte) (ghv : Block) (count : BitVec 32) :
    gcmAuth ctx gap data ghv count =
      ((data.foldl (hashStep ctx) ⟨ghv, filled count.toNat⟩).buf,
        count + BitVec.ofNat 32 data.length) := by
  by_cases hdata : data = []
  · rw [hdata, gcmAuth, if_pos List.length_nil]
    simp
  · have hstart := foldl_hashStep_start ctx hdata ghv count
    have hle : (count &&& 15).toNat ≤ 16 := by
      have hpos : (count &&& 15).toNat = count.toNat % 16 :=
        Nat.and_two_pow_sub_one_eq_mod count.toNat 4
      omega
    rw [gcmAuth, if_neg fun h => hdata (List.length_eq_zero_iff.mp h)]
    simp only [drain_one, List.length_nil, Nat.sub_zero]
    rw [← hstart]
    generalize (if count ≠ 0 ∧ (count &&& 15).toNat = 0 then gfMulHh ghv ctx else ghv) = buf
    have hwhole (whole : Filling × List Byte)
        (h : ∃ done, done ++ whole.2 = data ∧ RunOver ctx ⟨buf, (count &&& 15).toNat⟩ done whole.1) :
        whole.2.foldl (hashStep ctx) whole.1 =
          data.foldl (hashStep ctx) ⟨buf, (count &&& 15).toNat⟩ := by
      obtain ⟨done, hdone, hrun, _⟩ := h
      rw [← hdone, List.foldl_append, hrun]
    rw [← hwhole]
    · rfl
    · split_ifs
      · exact authAligned_eq hle data
      · exact authUnaligned_eq hle data

end Calls

/-- What a context keeps of the bytes hashed so far. -/
structure Hashed (mul : Block → Block) (data : List Byte) (ghv : Block) (count : BitVec 32) : Prop where
  ghv_eq : ghv = (data.foldl (hashByte mul) ⟨zeroBlock, 0⟩).buf
  count_eq : count = BitVec.ofNat 32 data.length

/-- Before any byte the hash is the zero block. -/
theorem hashed_nil (mul : Block → Block) : Hashed mul [] zeroBlock 0 := ⟨rfl, rfl⟩

/-- A call adds its data to the bytes hashed. The count must not have wrapped before. -/
theorem gcmAuth_hashed {mul : Block → Block} {ctx : GcmCtx} (hmul : ∀ a, gfMulHh a ctx = mul a)
    (gap : BitVec 32) {data : List Byte} {ghv : Block} {count : BitVec 32} (h : Hashed mul data ghv count)
    (hfits : data.length < 2 ^ 32) (more : List Byte) :
    Hashed mul (data ++ more) (gcmAuth ctx gap more ghv count).1 (gcmAuth ctx gap more ghv count).2 := by
  have hpos := bPos_foldl_hashByte mul (s := ⟨zeroBlock, 0⟩) (c := 0) rfl data
  rw [Nat.zero_add] at hpos
  have hcount : count.toNat = data.length := by
    rw [h.count_eq, BitVec.toNat_ofNat, Nat.mod_eq_of_lt hfits]
  have hstate : (⟨ghv, filled count.toNat⟩ : Filling) = data.foldl (hashByte mul) ⟨zeroBlock, 0⟩ := by
    rw [h.ghv_eq, hcount, ← hpos]
  have hstep : hashStep ctx = hashByte mul := congrArg hashByte (funext hmul)
  rw [gcmAuth_eq, hstep, hstate]
  constructor
  · rw [List.foldl_append]
  · rw [List.length_append, h.count_eq, ← BitVec.ofNat_add]

end CamkesVm.Aeslib
