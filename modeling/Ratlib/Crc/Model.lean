import Mathlib.Algebra.Group.Nat.Defs

/-! The bit-by-bit CRC of rat_rcrc.c with the rbit.h macros it uses. A
`uintmax_t` has 64 bits and an `unsigned char` eight. The assertions of
`rcrc_init` are `rcrcInitAsserts`; the other functions assert what it established. -/
namespace Ratlib.Crc

abbrev UintMax := BitVec 64
abbrev Byte := BitVec 8

def charBit : Nat := 8
def uintMaxBits : Nat := 64

def rbit (bitOffset : Nat) : UintMax := 1#64 <<< bitOffset
def rbitFlag (bitOffset : Nat) (value : Bool) : UintMax := if value then rbit bitOffset else 0#64
def rbitFlagGet (x : UintMax) (bitOffset : Nat) : Bool := (x &&& rbit bitOffset) != 0#64
def rbitMask (bitOffset bitCount : Nat) : UintMax := (rbit bitCount - 1#64) <<< bitOffset

def reflect (value : UintMax) (bits : Nat) : UintMax :=
  (List.range bits).foldl
    (fun result i => result ||| rbitFlag i (rbitFlagGet value (bits - 1 - i))) 0#64

def mask (bits : Nat) : UintMax :=
  if bits = uintMaxBits then BitVec.allOnes 64 else rbitMask 0 bits

structure Rcrc where
  poly : UintMax
  init : UintMax
  value : UintMax
  xorOut : UintMax
  bitWidth : Nat
  initOffset : Nat
  refIn : Bool
  refOut : Bool

def rcrcInitAsserts (bitWidth : Nat) (poly init xorOut : UintMax) : Bool :=
  decide (bitWidth > 0) && decide (bitWidth ≤ uintMaxBits) && (poly &&& ~~~mask bitWidth) == 0#64 &&
    (init &&& ~~~mask bitWidth) == 0#64 && (xorOut &&& ~~~mask bitWidth) == 0#64

def rcrcInit (bitWidth : Nat) (poly init : UintMax) (refIn refOut : Bool) (xorOut : UintMax) : Rcrc where
  bitWidth := bitWidth
  poly := poly
  init := init
  refIn := refIn
  refOut := refOut
  xorOut := xorOut
  value := 0#64
  initOffset := 0

/-- The slice of `init` that meets the next byte, and the advanced `initOffset`. -/
def foldInit (p : Rcrc) (b : Byte) : Rcrc × Byte :=
  if p.initOffset < p.bitWidth then
    let initOffset := (p.initOffset + charBit) % 2 ^ charBit
    if p.bitWidth ≤ initOffset then
      ({ p with initOffset }, b ^^^ (p.init <<< (initOffset - p.bitWidth)).setWidth 8)
    else
      ({ p with initOffset }, b ^^^ (p.init >>> (p.bitWidth - initOffset)).setWidth 8)
  else (p, b)

/-- One round of the bit loop of `rcrc_addByte`, on `p->value` and `b`. -/
def addBit (bitWidth : Nat) (poly : UintMax) (state : UintMax × Byte) : UintMax × Byte :=
  let (value, b) := state
  (((value <<< 1) ||| (BitVec.ofBool (rbitFlagGet (b.setWidth 64) (charBit - 1))).setWidth 64) ^^^
    ((BitVec.ofBool (rbitFlagGet value (bitWidth - 1))).setWidth 64 * poly), b <<< 1)

def rcrcAddByte (p : Rcrc) (b : Byte) : Rcrc :=
  let b := if p.refIn then (reflect (b.setWidth 64) charBit).setWidth 8 else b
  let (p, b) := foldInit p b
  { p with value := (Nat.repeat (addBit p.bitWidth p.poly) charBit (p.value, b)).1 }

def rcrcAdd (p : Rcrc) (buf : List Byte) : Rcrc := buf.foldl rcrcAddByte p

/-- One round of the augmenting loop of `rcrc_result`. -/
def resultBit (bitWidth : Nat) (poly result : UintMax) : UintMax :=
  (result <<< 1) ^^^ ((BitVec.ofBool (rbitFlagGet result (bitWidth - 1))).setWidth 64 * poly)

def rcrcResult (p : Rcrc) : UintMax :=
  let result := Nat.repeat (resultBit p.bitWidth p.poly) p.bitWidth p.value
  let result := result &&& mask p.bitWidth
  let result := if p.refOut then reflect result p.bitWidth else result
  result ^^^ p.xorOut

def rcrcCalc (bitWidth : Nat) (poly init : UintMax) (refIn refOut : Bool) (xorOut : UintMax)
    (buf : List Byte) : UintMax :=
  rcrcResult (rcrcAdd (rcrcInit bitWidth poly init refIn refOut xorOut) buf)

inductive Call where
  | addByte (b : Byte)
  | add (buf : List Byte)

def Call.bytes : Call → List Byte
  | .addByte b => [b]
  | .add buf => buf

def Call.apply (p : Rcrc) : Call → Rcrc
  | .addByte b => rcrcAddByte p b
  | .add buf => rcrcAdd p buf

def stream (bitWidth : Nat) (poly init : UintMax) (refIn refOut : Bool) (xorOut : UintMax)
    (calls : List Call) : UintMax :=
  rcrcResult (calls.foldl Call.apply (rcrcInit bitWidth poly init refIn refOut xorOut))

-- The check value of CRC-16/IBM-3740 over "123456789".
example : rcrcCalc 16 0x1021 0xFFFF false false 0
    [0x31, 0x32, 0x33, 0x34, 0x35, 0x36, 0x37, 0x38, 0x39] = 0x29B1#64 := by decide +kernel

end Ratlib.Crc
