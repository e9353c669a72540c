import CamkesVm.Aeslib.Aes
import CamkesVm.Aeslib.FieldMul
import CamkesVm.Machine.Drain

/-!
# The Galois counter mode of the source

The model of `gcm.c` as it is built here: 32-bit units, little endian, and a table of 256 products for
the multiplications by the hash key. A message may be handed over in any number of calls. Each call
first fills up a block that an earlier one left open, then works on whole blocks and leaves the rest
of the buffer in an open block. A call takes words instead of bytes when the buffer and the block in
the context have the same alignment, so it also gets the address of the buffer relative to the
context.

Return codes that are always `RETURN_GOOD` are left out.
-/

namespace CamkesVm.Aeslib

open CamkesVm.Machine

/-- The mode context. -/
structure GcmCtx where
  gfT4k : Table Block
  ctrVal : Block
  encCtr : Block
  hdrGhv : Block
  txtGhv : Block
  ghashH : Block
  aes : AesCtx
  y0Val : BitVec 32
  hdrCnt : BitVec 32
  txtCcnt : BitVec 32
  txtAcnt : BitVec 32

/-- Addresses of the buffers in the context, behind the table. -/
abbrev encCtrAt : BitVec 32 := 4096 + 16
abbrev hdrGhvAt : BitVec 32 := 4096 + 32
abbrev txtGhvAt : BitVec 32 := 4096 + 48

/-- The return codes of `gcm.h`. -/
abbrev returnWarn : ℤ := 1
abbrev returnGood : ℤ := 0
abbrev returnError : ℤ := -1

section Setup

/-- Add one to the last of the given bytes, with carry to the next ones. -/
def incBytes : List (Fin 16) → Block → Block
  | [], x => x
  | i :: rest, x =>
    let x := put x i (x.get i + 1)
    if x.get i = 0 then incBytes rest x else x

/-- Step the counter in the last four bytes. -/
def incCtr (x : Block) : Block := incBytes [15, 14, 13, 12] x

/-- Set the key and tabulate the multiples of the hash key. -/
def gcmInitAndKey (key : Block) (ctx : GcmCtx) : GcmCtx :=
  let aes := aesEncryptKey128 key ctx.aes
  let ghashH := (aesEncrypt zeroBlock zeroBlock aes).2
  { ctx with aes := aes, ghashH := ghashH, gfT4k := init4kTable ghashH ctx.gfT4k }

/-- Multiply by the hash key. -/
def gfMulHh (a : Block) (ctx : GcmCtx) : Block := gfMul4k a ctx.gfT4k

/-- A block that is being filled, and the place of the next byte. -/
structure Filling where
  buf : Block
  bPos : ℕ

/-- Add a byte at the next place. -/
def xorByte (s : Filling) (piece : List Byte) : Filling :=
  ⟨put s.buf (place s.bPos) (s.buf.get (place s.bPos) ^^^ piece.getD 0 0), s.bPos + 1⟩

/-- Add a word at the next place. -/
def xorUnit (s : Filling) (piece : List Byte) : Filling :=
  ⟨storeWord s.buf s.bPos (loadWord s.buf s.bPos ^^^ listWord piece), s.bPos + 4⟩

/-- Add the bytes of a number from place `i` down, until none is left. -/
def xorLength (x : Block) (i n : ℕ) : Block :=
  if n = 0 then x
  else xorLength (put x (place i) (x.get (place i) ^^^ BitVec.ofNat 8 n)) (i - 1) (n >>> 8)
  termination_by n
  decreasing_by
    rw [Nat.shiftRight_eq_div_pow]
    omega

/-- The first counter block of a message. -/
def initCtr (iv : List Byte) (ctx : GcmCtx) : Block :=
  if iv.length = 12 then put (Vector.ofFn fun i => if i < 12 then iv.getD i 0 else 0) 15 0x01
  else
    let whole := drain 16 (fun _ => true)
      (fun ctr piece => gfMulHh (xorBlockAligned ctr (listBlock piece)) ctx) zeroBlock iv
    let ctr := if whole.2.length ≠ 0 then
        gfMulHh (drain 1 (fun _ => true) xorByte ⟨whole.1, 0⟩ whole.2).1.buf ctx
      else whole.1
    gfMulHh (xorLength ctr 15 (iv.length <<< 3 % 2 ^ 32)) ctx

/-- Start a new message. -/
def gcmInitMessage (iv : List Byte) (ctx : GcmCtx) : GcmCtx :=
  let ctrVal := initCtr iv ctx
  { ctx with
    ctrVal := ctrVal, y0Val := loadWord ctrVal 12, hdrGhv := zeroBlock, txtGhv := zeroBlock
    hdrCnt := 0, txtCcnt := 0, txtAcnt := 0 }

end Setup

section Authentication

/-- Bytes, words and blocks of a buffer with the alignment of the block. -/
def authAligned (ctx : GcmCtx) (s : Filling) (data : List Byte) : Filling × List Byte :=
  let head := drain 1 (fun s => s.bPos &&& 3 != 0) xorByte s data
  let words := drain 4 (fun s => s.bPos ≤ 12) xorUnit head.1 head.2
  drain 16 (fun _ => true)
    (fun s piece => ⟨xorBlockAligned (gfMulHh s.buf ctx) (listBlock piece), s.bPos⟩) words.1 words.2

/-- Bytes and blocks of a buffer with another alignment. -/
def authUnaligned (ctx : GcmCtx) (s : Filling) (data : List Byte) : Filling × List Byte :=
  let head := drain 1 (fun s => s.bPos < 16) xorByte s data
  drain 16 (fun _ => true)
    (fun s piece => ⟨xorBlock (gfMulHh s.buf ctx) (listBlock piece), s.bPos⟩) head.1 head.2

/-- Go on hashing: the common body of the functions for the header and for the text, with the buffer,
the count and the distance of the data from the buffer. -/
def gcmAuth (ctx : GcmCtx) (gap : BitVec 32) (data : List Byte) (ghv : Block) (count : BitVec 32) :
    Block × BitVec 32 :=
  let bPos := (count &&& 15).toNat
  if data.length = 0 then (ghv, count)
  else
    let s : Filling := ⟨if count ≠ 0 ∧ bPos = 0 then gfMulHh ghv ctx else ghv, bPos⟩
    let whole :=
      if (gap - BitVec.ofNat 32 bPos) &&& 3 = 0 then authAligned ctx s data
      else authUnaligned ctx s data
    let last := drain 1 (fun _ => true)
      (fun s piece => xorByte (if s.bPos = 16 then ⟨gfMulHh s.buf ctx, 0⟩ else s) piece)
      whole.1 whole.2
    (last.1.buf, count + BitVec.ofNat 32 (data.length - last.2.length))

/-- Authenticate the header. -/
def gcmAuthHeader (ptr : BitVec 32) (hdr : List Byte) (ctx : GcmCtx) : GcmCtx :=
  let r := gcmAuth ctx (ptr - hdrGhvAt) hdr ctx.hdrGhv ctx.hdrCnt
  { ctx with hdrGhv := r.1, hdrCnt := r.2 }

/-- Authenticate ciphertext. -/
def gcmAuthData (ptr : BitVec 32) (data : List Byte) (ctx : GcmCtx) : GcmCtx :=
  let r := gcmAuth ctx (ptr - txtGhvAt) data ctx.txtGhv ctx.txtAcnt
  { ctx with txtGhv := r.1, txtAcnt := r.2 }

end Authentication

section Encryption

/-- The counter, its encryption, the next place in it and the data done so far. -/
structure CryptState where
  ctrVal : Block
  encCtr : Block
  bPos : ℕ
  done : List Byte

/-- Encrypt the next counter. -/
def nextCtr (aes : AesCtx) (s : CryptState) : CryptState :=
  let ctrVal := incCtr s.ctrVal
  { s with ctrVal := ctrVal, encCtr := (aesEncrypt ctrVal s.encCtr aes).2 }

/-- Combine a byte. -/
def cryptByte (s : CryptState) (piece : List Byte) : CryptState :=
  { s with done := s.done ++ [piece.getD 0 0 ^^^ s.encCtr.get (place s.bPos)], bPos := s.bPos + 1 }

/-- Combine a word. -/
def cryptUnit (s : CryptState) (piece : List Byte) : CryptState :=
  let w := listWord piece ^^^ loadWord s.encCtr s.bPos
  { s with done := s.done ++ [byteAt w 0, byteAt w 1, byteAt w 2, byteAt w 3], bPos := s.bPos + 4 }

/-- Bytes, words and blocks of a buffer with the alignment of the encrypted counter. -/
def cryptAligned (aes : AesCtx) (s : CryptState) (data : List Byte) : CryptState × List Byte :=
  let words :=
    if s.bPos ≠ 0 then
      let head := drain 1 (fun s => s.bPos &&& 3 != 0) cryptByte s data
      drain 4 (fun s => s.bPos ≤ 12) cryptUnit head.1 head.2
    else (s, data)
  drain 16 (fun _ => true)
    (fun s piece =>
      let s := nextCtr aes s
      { s with done := s.done ++ (xorBlockAligned (listBlock piece) s.encCtr).toList })
    words.1 words.2

/-- Bytes and blocks of a buffer with another alignment. -/
def cryptUnaligned (aes : AesCtx) (s : CryptState) (data : List Byte) : CryptState × List Byte :=
  let head := if s.bPos ≠ 0 then drain 1 (fun s => s.bPos < 16) cryptByte s data else (s, data)
  drain 16 (fun _ => true)
    (fun s piece =>
      let s := nextCtr aes s
      { s with done := s.done ++ (xorBlock (listBlock piece) s.encCtr).toList })
    head.1 head.2

/-- Encrypt or decrypt data in place. -/
def gcmCryptData (ptr : BitVec 32) (data : List Byte) (ctx : GcmCtx) : List Byte × GcmCtx :=
  let bPos := (ctx.txtCcnt &&& 15).toNat
  if data.length = 0 then (data, ctx)
  else
    let s : CryptState := ⟨ctx.ctrVal, ctx.encCtr, bPos, []⟩
    let whole :=
      if (ptr - encCtrAt - BitVec.ofNat 32 bPos) &&& 3 = 0 then cryptAligned ctx.aes s data
      else cryptUnaligned ctx.aes s data
    let last := drain 1 (fun _ => true)
      (fun s piece =>
        cryptByte (if s.bPos = 16 ∨ s.bPos = 0 then { nextCtr ctx.aes s with bPos := 0 } else s) piece)
      whole.1 whole.2
    (last.1.done, { ctx with
      ctrVal := last.1.ctrVal, encCtr := last.1.encCtr
      txtCcnt := ctx.txtCcnt + BitVec.ofNat 32 (data.length - last.2.length) })

/-- Encrypt and authenticate data. -/
def gcmEncrypt (ptr : BitVec 32) (data : List Byte) (ctx : GcmCtx) : List Byte × GcmCtx :=
  let r := gcmCryptData ptr data ctx
  (r.1, gcmAuthData ptr r.1 r.2)

/-- Authenticate and decrypt data. -/
def gcmDecrypt (ptr : BitVec 32) (data : List Byte) (ctx : GcmCtx) : List Byte × GcmCtx :=
  gcmCryptData ptr data (gcmAuthData ptr data ctx)

end Encryption

section Tag

/-- Multiply by a power, by repeated squaring of the base. -/
def mulPower (a base : Block) (ln : ℕ) : Block :=
  let a := if ln &&& 1 ≠ 0 then gfMulTMD a (some base) else a
  if ln >>> 1 = 0 then a else mulPower a (gfMulTMD base none) (ln >>> 1)
  termination_by ln
  decreasing_by
    rw [Nat.shiftRight_eq_div_pow] at *
    omega

/-- Add the hash of the text and both lengths in bits, from the last byte to the first. -/
def addLengths (hdrGhv txtGhv : Block) (hdrCnt txtAcnt : BitVec 32) : Block :=
  ((List.finRange 16).reverse.foldl
    (fun (s : Block × BitVec 64) i =>
      (put s.1 i (s.1.get i ^^^ (txtGhv.get i ^^^ s.2.setWidth 8)),
        if i = 8 then hdrCnt.setWidth 64 <<< 3 else s.2 >>> 8))
    (hdrGhv, txtAcnt.setWidth 64 <<< 3)).1

/-- The length of a tag, at most a block. For a longer one the source would read on behind the blocks
that a tag is taken from. -/
abbrev TagLen := Fin 17

/-- Compute the tag. The code, the tag buffer and the context are returned. -/
def gcmComputeTag (tag : List Byte) (tagLen : TagLen) (ctx : GcmCtx) : ℤ × List Byte × GcmCtx :=
  if ctx.txtAcnt ≠ ctx.txtCcnt ∧ ctx.txtCcnt > 0 then (returnError, tag, ctx)
  else
    let hdrGhv := gfMulHh ctx.hdrGhv ctx
    let txtGhv := gfMulHh ctx.txtGhv ctx
    let ln := ((ctx.txtAcnt + 16 - 1) / 16).toNat
    let hdrGhv := if ctx.hdrCnt ≠ 0 then
        if ln ≠ 0 then mulPower hdrGhv ctx.ghashH ln else hdrGhv
      else hdrGhv
    let hdrGhv := gfMulHh (addLengths hdrGhv txtGhv ctx.hdrCnt ctx.txtAcnt) ctx
    let encCtr := storeWord ctx.ctrVal 12 ctx.y0Val
    let encCtr := (aesEncrypt encCtr encCtr ctx.aes).2
    (if ctx.txtCcnt = ctx.txtAcnt then returnGood else returnWarn,
      (xorBlock hdrGhv encCtr).toList.take tagLen ++ tag.drop tagLen,
      { ctx with hdrGhv := hdrGhv, txtGhv := txtGhv, encCtr := encCtr })

/-- The context after clean-up. -/
def gcmEnd : GcmCtx where
  gfT4k := ⟨fun _ => zeroBlock⟩
  ctrVal := zeroBlock
  encCtr := zeroBlock
  hdrGhv := zeroBlock
  txtGhv := zeroBlock
  ghashH := zeroBlock
  aes := ⟨fun _ => 0, 0⟩
  y0Val := 0
  hdrCnt := 0
  txtCcnt := 0
  txtAcnt := 0

end Tag

section Messages

/-- What a call on a whole message leaves: its code, both buffers and the context. -/
structure GcmOut where
  ret : ℤ
  msg : List Byte
  tag : List Byte
  ctx : GcmCtx

/-- Encrypt an entire message in place. -/
def gcmEncryptMessage (hdrPtr msgPtr : BitVec 32) (iv hdr msg tag : List Byte) (tagLen : TagLen)
    (ctx : GcmCtx) : GcmOut :=
  let ctx := gcmAuthHeader hdrPtr hdr (gcmInitMessage iv ctx)
  let r := gcmEncrypt msgPtr msg ctx
  let t := gcmComputeTag tag tagLen r.2
  ⟨if t.1 ≠ 0 then returnError else returnGood, r.1, t.2.1, t.2.2⟩

/-- Decrypt an entire message in place and compare its tag. The local tag starts with zeros here; the
bytes compared are written before. -/
def gcmDecryptMessage (hdrPtr msgPtr : BitVec 32) (iv hdr msg tag : List Byte) (tagLen : TagLen)
    (ctx : GcmCtx) : GcmOut :=
  let ctx := gcmAuthHeader hdrPtr hdr (gcmInitMessage iv ctx)
  let r := gcmDecrypt msgPtr msg ctx
  let t := gcmComputeTag zeroBlock.toList tagLen r.2
  ⟨if t.1 ≠ returnGood ∨ tag.take tagLen ≠ t.2.1.take tagLen then returnError else returnGood, r.1, tag,
    t.2.2⟩

end Messages

end CamkesVm.Aeslib
