import Ratlib.Platform

/-! The keyed hash of rat_rhash.c. Words are read from the input little endian; buffers
are lists of bytes. -/
namespace Ratlib.Hash

structure Words where
  v0 : UInt32
  v1 : UInt32
  v2 : UInt32
  v3 : UInt32

structure RHash where
  val : Words
  rem : UInt32
  totalSize : Nat

def crounds : Nat := 1
def drounds : Nat := 3

def rotl (v n : UInt32) : UInt32 := v <<< n ||| v >>> (32 - n)

def sipround (v : Words) : Words :=
  let v0 := v.v0 + v.v1
  let v1 := rotl v.v1 5 ^^^ v0
  let v0 := rotl v0 16
  let v2 := v.v2 + v.v3
  let v3 := rotl v.v3 8 ^^^ v2
  let v0 := v0 + v3
  let v3 := rotl v3 7 ^^^ v0
  let v2 := v2 + v1
  let v1 := rotl v1 13 ^^^ v2
  ⟨v0, v1, rotl v2 16, v3⟩

def addWord (v : Words) (word : UInt32) : Words :=
  let v := sipround^[crounds] { v with v3 := v.v3 ^^^ word }
  { v with v0 := v.v0 ^^^ word }

def rhashInit (key0 key1 : UInt32) : RHash where
  val := ⟨key0, key1, key0 ^^^ 0x6c796765, key1 ^^^ 0x74656462⟩
  rem := 0
  totalSize := 0

/-- Bytes or-ed into a word from byte `offset` on. -/
def orBytes (word : UInt32) (offset : Nat) : List UInt8 → UInt32
  | [] => word
  | byte :: bytes =>
    orBytes (word ||| byte.toUInt32 <<< UInt32.ofNat (8 * offset)) (offset + 1) bytes

/-- The whole words of the input, and what is left of it. -/
def addWords (v : Words) : List UInt8 → Words × List UInt8
  | b0 :: b1 :: b2 :: b3 :: bytes => addWords (addWord v (orBytes 0 0 [b0, b1, b2, b3])) bytes
  | bytes => (v, bytes)

variable (P : Platform)

def rhashAdd (p : RHash) (buf : List UInt8) : RHash :=
  let oldRemSize := p.totalSize % 4
  let totalSize := P.add p.totalSize buf.length
  let needSize := 4 - oldRemSize
  if oldRemSize ≠ 0 ∧ needSize > buf.length then
    { p with rem := orBytes p.rem oldRemSize buf, totalSize := totalSize }
  else
    let (v, words) :=
      if oldRemSize ≠ 0 then
        (addWord p.val (orBytes p.rem oldRemSize (buf.take needSize)), buf.drop needSize)
      else (p.val, buf)
    let (v, bytes) := addWords v words
    { val := v, rem := orBytes 0 0 bytes, totalSize := totalSize }

def rhashResult (p : RHash) : UInt32 :=
  let word := p.rem ||| UInt32.ofNat p.totalSize <<< 24
  let v := addWord p.val word
  let v := sipround^[drounds] { v with v2 := v.v2 ^^^ 0xFF }
  v.v1 ^^^ v.v3

def rhashCalc (key0 key1 : UInt32) (buf : List UInt8) : UInt32 :=
  rhashResult (rhashAdd P (rhashInit key0 key1) buf)

end Ratlib.Hash
