import Mathlib.Data.Nat.Digits.Defs
import Mathlib.Logic.Function.Iterate

/-! HalfSipHash-1-3 with a hash of 32 bits, as a function of the whole message. Bytes make
little-endian words, and the last word ends in the low byte of the length. -/
namespace Ratlib.HalfSip

structure State where
  v0 : BitVec 32
  v1 : BitVec 32
  v2 : BitVec 32
  v3 : BitVec 32

def start (key0 key1 : BitVec 32) : State := ⟨key0, key1, 0x6c796765 ^^^ key0, 0x74656462 ^^^ key1⟩

def round (s : State) : State :=
  let v0 := s.v0 + s.v1
  let v1 := s.v1.rotateLeft 5 ^^^ v0
  let v0 := v0.rotateLeft 16
  let v2 := s.v2 + s.v3
  let v3 := s.v3.rotateLeft 8 ^^^ v2
  let v0 := v0 + v3
  let v3 := v3.rotateLeft 7 ^^^ v0
  let v2 := v2 + v1
  let v1 := v1.rotateLeft 13 ^^^ v2
  let v2 := v2.rotateLeft 16
  ⟨v0, v1, v2, v3⟩

def compress (s : State) (word : BitVec 32) : State :=
  let s := round { s with v3 := s.v3 ^^^ word }
  { s with v0 := s.v0 ^^^ word }

def number (bytes : List UInt8) : Nat := Nat.ofDigits 256 (bytes.map UInt8.toNat)

def word (message : List UInt8) (i : Nat) : BitVec 32 :=
  BitVec.ofNat 32 (number ((message.drop (4 * i)).take 4))

/-- The bytes behind the last whole word, with the low byte of the length on top. -/
def tail (message : List UInt8) : BitVec 32 :=
  BitVec.ofNat 32 (number (message.drop (4 * (message.length / 4))) + message.length % 256 * 2 ^ 24)

def hash (key0 key1 : BitVec 32) (message : List UInt8) : BitVec 32 :=
  let words := (List.range (message.length / 4)).map (word message)
  let s := (words ++ [tail message]).foldl compress (start key0 key1)
  let s := round^[3] { s with v2 := s.v2 ^^^ 0xFF }
  s.v1 ^^^ s.v3

end Ratlib.HalfSip
