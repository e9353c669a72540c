import CamkesVm.Aeslib.AesTables

/-!
# The block cipher

The model of `aescrypt.c` and `aeskey.c` as they are configured here: 128-bit keys, four tables for
every round, unrolled rounds and key schedules, and the decryption schedule stored in the order in
which it is used.

A context is the memory from its schedule on, of which the schedule is the first 44 words, and the
byte that holds sixteen times the number of rounds. A context that no key was set in is refused
unless this byte happens to be one of the three valid values.
-/

namespace CamkesVm.Aeslib

open CamkesVm.Machine

/-- A context of the cipher. -/
structure AesCtx where
  ks : ℕ → BitVec 32
  inf : Byte

/-- The exclusive or of one entry of each of four tables. -/
def fourTables (tab : Fin 4 → Byte → BitVec 32) (vf : Fin 4 → BitVec 32) (rf : Fin 4 → Fin 4) :
    BitVec 32 :=
  tab 0 (byteAt (vf 0) (rf 0)) ^^^ tab 1 (byteAt (vf 1) (rf 1)) ^^^ tab 2 (byteAt (vf 2) (rf 2)) ^^^
    tab 3 (byteAt (vf 3) (rf 3))

/-- Substitute the bytes of a word, moved by `c` places. -/
def lsBox (x : BitVec 32) (c : Fin 4) : BitVec 32 := fourTables tFl (fun _ => x) fun r => r - c

/-- The inverse column mixing of a word. -/
def invMcol (x : BitVec 32) : BitVec 32 := fourTables tIm (fun _ => x) id

/-- The round key at word `n` of a schedule. -/
def rndKey (ks : ℕ → BitVec 32) (n : ℕ) (c : Fin 4) : BitVec 32 := ks (n + c)

/-- The context appears to have been initialised. -/
def AesCtx.valid (cx : AesCtx) : Bool := cx.inf = 10 * 16 || cx.inf = 12 * 16 || cx.inf = 14 * 16

/-- The rounds of both directions, with the normal round and the last one. Nothing is written for a
context that is refused. -/
def crypt (rnd lrnd : Units → (Fin 4 → BitVec 32) → Fin 4 → BitVec 32) (inp out : Block)
    (cx : AesCtx) : ℤ × Block :=
  if cx.valid then
    let b := Vector.ofFn fun c => unit inp c ^^^ rndKey cx.ks 0 c
    let rounds := cx.inf.toNat / 16
    let b := (List.range' 1 (rounds - 1)).foldl
      (fun b r => Vector.ofFn (rnd b (rndKey cx.ks (4 * r)))) b
    (0, ofUnits (Vector.ofFn (lrnd b (rndKey cx.ks (4 * rounds)))))
  else (-1, out)

section Encryption

/-- Column `c` of a normal round. -/
def fwdRnd (x : Units) (k : Fin 4 → BitVec 32) (c : Fin 4) : BitVec 32 :=
  k c ^^^ fourTables tFn (fun r => x.get (c + r)) id

/-- Column `c` of the last round. -/
def fwdLrnd (x : Units) (k : Fin 4 → BitVec 32) (c : Fin 4) : BitVec 32 :=
  k c ^^^ fourTables tFl (fun r => x.get (c + r)) id

/-- Encrypt a block. -/
def aesEncrypt (inp out : Block) (cx : AesCtx) : ℤ × Block := crypt fwdRnd fwdLrnd inp out cx

/-- One cycle of the encryption schedule. -/
def ke4 (st : Units × (ℕ → BitVec 32)) (i : ℕ) : Units × (ℕ → BitVec 32) :=
  let ss := st.1
  let ss0 := ss.get 0 ^^^ (lsBox (ss.get 3) 3 ^^^ tRc i)
  let ss1 := ss.get 1 ^^^ ss0
  let ss2 := ss.get 2 ^^^ ss1
  let ss3 := ss.get 3 ^^^ ss2
  let k := Function.update st.2 (4 * i + 4) ss0
  let k := Function.update k (4 * i + 5) ss1
  let k := Function.update k (4 * i + 6) ss2
  (#v[ss0, ss1, ss2, ss3], Function.update k (4 * i + 7) ss3)

/-- Set an encryption key. -/
def aesEncryptKey128 (key : Block) (cx : AesCtx) : AesCtx where
  ks := ((List.range 10).foldl ke4 (units key, writeRange cx.ks 0 (List.ofFn (unit key)))).2
  inf := 10 * 16

end Encryption

section Decryption

/-- Column `c` of a normal inverse round. -/
def invRnd (x : Units) (k : Fin 4 → BitVec 32) (c : Fin 4) : BitVec 32 :=
  k c ^^^ fourTables tIn (fun r => x.get (c - r)) id

/-- Column `c` of the last inverse round. -/
def invLrnd (x : Units) (k : Fin 4 → BitVec 32) (c : Fin 4) : BitVec 32 :=
  k c ^^^ fourTables tIl (fun r => x.get (c - r)) id

/-- Decrypt a block. -/
def aesDecrypt (inp out : Block) (cx : AesCtx) : ℤ × Block := crypt invRnd invLrnd inp out cx

/-- The place of word `i` of the encryption schedule in the decryption schedule. -/
def vIx (i : ℕ) : ℕ := 40 + 2 * (i &&& 3) - i

/-- The four sums that close a cycle: `ss[4]` runs over the words of the new round key. -/
def runningWords (k : ℕ → BitVec 32) (i : ℕ) (g : BitVec 32) : Fin 4 → BitVec 32 :=
  let a := g ^^^ k (vIx (4 * i))
  let b := a ^^^ k (vIx (4 * i + 1))
  let c := b ^^^ k (vIx (4 * i + 2))
  ![a, b, c, c ^^^ k (vIx (4 * i + 3))]

/-- Store the four words of a round key. -/
def storeKey (k : ℕ → BitVec 32) (i : ℕ) (w : Fin 4 → BitVec 32) : ℕ → BitVec 32 :=
  let k := Function.update k (vIx (4 * i + 4)) (w 0)
  let k := Function.update k (vIx (4 * i + 5)) (w 1)
  let k := Function.update k (vIx (4 * i + 6)) (w 2)
  Function.update k (vIx (4 * i + 7)) (w 3)

/-- The first cycle of the decryption schedule. -/
def kdf4 (st : (ℕ → BitVec 32) × (ℕ → BitVec 32)) (i : ℕ) : (ℕ → BitVec 32) × (ℕ → BitVec 32) :=
  let ss := st.1
  let ss := Function.update ss 0 (ss 0 ^^^ ss 2 ^^^ ss 1 ^^^ ss 3)
  let ss := Function.update ss 1 (ss 1 ^^^ ss 3)
  let ss := Function.update ss 2 (ss 2 ^^^ ss 3)
  let g := lsBox (ss ((i + 3) % 4)) 3 ^^^ tRc i
  let ss := Function.update ss (i % 4) (ss (i % 4) ^^^ g)
  (ss, storeKey st.2 i fun c => invMcol (runningWords st.2 i g c))

/-- The next eight cycles of the decryption schedule. -/
def kd4 (st : (ℕ → BitVec 32) × (ℕ → BitVec 32)) (i : ℕ) : (ℕ → BitVec 32) × (ℕ → BitVec 32) :=
  let ss := st.1
  let g := lsBox (ss ((i + 3) % 4)) 3 ^^^ tRc i
  let ss := Function.update ss (i % 4) (ss (i % 4) ^^^ g)
  (ss, storeKey st.2 i (runningWords st.2 i (invMcol g)))

/-- The last cycle of the decryption schedule. -/
def kdl4 (st : (ℕ → BitVec 32) × (ℕ → BitVec 32)) (i : ℕ) : (ℕ → BitVec 32) × (ℕ → BitVec 32) :=
  let ss := st.1
  let g := lsBox (ss ((i + 3) % 4)) 3 ^^^ tRc i
  let ss := Function.update ss (i % 4) (ss (i % 4) ^^^ g)
  let ss := Function.update ss 0 (ss 0 ^^^ ss 1)
  (ss, storeKey st.2 i ![ss 0 ^^^ ss 2 ^^^ ss 3, ss 1 ^^^ ss 3, ss 0, ss 1])

/-- Set a decryption key. -/
def aesDecryptKey128 (key : Block) (cx : AesCtx) : AesCtx where
  ks :=
    let ss := writeRange (fun _ => 0) 0 (List.ofFn (unit key))
    let st := (ss, writeRange cx.ks (vIx 0) (List.ofFn (unit key)))
    let st := (List.range' 1 8).foldl kd4 (kdf4 st 0)
    (kdl4 st 9).2
  inf := 10 * 16

end Decryption

end CamkesVm.Aeslib
