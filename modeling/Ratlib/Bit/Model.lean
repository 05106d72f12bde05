import Ratlib.Crc.Model

/-! The flags and fields of rbit.h in a `uintmax_t`, beside `RBIT`, `RBIT_FLAG`,
`RBIT_FLAG_GET` and `RBIT_MASK`, which rcrc uses. Words and flags are of type `uintmax_t`
here. Narrower operands, of which `~` is as narrow, are left out. -/
namespace Ratlib.Bit

open Crc (UintMax uintMaxBits rbit rbitFlag rbitFlagGet rbitMask)

def rbitFlagSet (x : UintMax) (bitOffset : Nat) : UintMax := x ||| rbit bitOffset
def rbitFlagUnset (x : UintMax) (bitOffset : Nat) : UintMax := x &&& ~~~rbit bitOffset
def rbitFlagWrite (x : UintMax) (bitOffset : Nat) (value : UintMax) : UintMax :=
  rbitFlagUnset x bitOffset ||| rbitFlag bitOffset (value != 0#64)

def rbitFlags (flags : UintMax) : UintMax := flags
def rbitFlagsGet (x flags : UintMax) : UintMax := x &&& flags
def rbitFlagsSet (x flags : UintMax) : UintMax := x ||| flags
def rbitFlagsUnset (x flags : UintMax) : UintMax := x &&& ~~~flags
def rbitFlagsEqual (x flags : UintMax) : Bool := x == flags
def rbitFlagsAll (x flags : UintMax) : Bool := x &&& flags == flags
def rbitFlagsOnly (x flags : UintMax) : Bool := x &&& flags == x
def rbitFlagsAny (x flags : UintMax) : Bool := x &&& flags != 0#64

def rbitField (bitOffset bitCount : Nat) (value : UintMax) : UintMax := (value &&& rbitMask 0 bitCount) <<< bitOffset
def rbitFieldGet (x : UintMax) (bitOffset bitCount : Nat) : UintMax := x >>> bitOffset &&& rbitMask 0 bitCount
def rbitFieldSet (x : UintMax) (bitOffset bitCount : Nat) : UintMax := x ||| rbitMask bitOffset bitCount
def rbitFieldUnset (x : UintMax) (bitOffset bitCount : Nat) : UintMax := x &&& ~~~rbitMask bitOffset bitCount
def rbitFieldWrite (x : UintMax) (bitOffset bitCount : Nat) (value : UintMax) : UintMax :=
  rbitFieldUnset x bitOffset bitCount ||| rbitField bitOffset bitCount value

/-- A shift by `bits` is valid for a `uintmax_t`. -/
def Shifts (bits : Nat) : Prop := bits < uintMaxBits

instance (bits : Nat) : Decidable (Shifts bits) := inferInstanceAs (Decidable (_ < _))

inductive Op where
  | flagSet (bitOffset : Nat)
  | flagUnset (bitOffset : Nat)
  | flagWrite (bitOffset : Nat) (value : UintMax)
  | flagsSet (flags : UintMax)
  | flagsUnset (flags : UintMax)
  | fieldSet (bitOffset bitCount : Nat)
  | fieldUnset (bitOffset bitCount : Nat)
  | fieldWrite (bitOffset bitCount : Nat) (value : UintMax)

def Op.Valid : Op → Prop
  | .flagSet bitOffset | .flagUnset bitOffset | .flagWrite bitOffset _ => Shifts bitOffset
  | .flagsSet _ | .flagsUnset _ => True
  | .fieldSet bitOffset bitCount | .fieldUnset bitOffset bitCount | .fieldWrite bitOffset bitCount _ =>
    Shifts bitOffset ∧ Shifts bitCount

instance : DecidablePred Op.Valid
  | .flagSet _ | .flagUnset _ | .flagWrite _ _ => inferInstanceAs (Decidable (Shifts _))
  | .flagsSet _ | .flagsUnset _ => inferInstanceAs (Decidable True)
  | .fieldSet _ _ | .fieldUnset _ _ | .fieldWrite _ _ _ => inferInstanceAs (Decidable (Shifts _ ∧ Shifts _))

def call (x : UintMax) : Op → UintMax
  | .flagSet bitOffset => rbitFlagSet x bitOffset
  | .flagUnset bitOffset => rbitFlagUnset x bitOffset
  | .flagWrite bitOffset value => rbitFlagWrite x bitOffset value
  | .flagsSet flags => rbitFlagsSet x (rbitFlags flags)
  | .flagsUnset flags => rbitFlagsUnset x (rbitFlags flags)
  | .fieldSet bitOffset bitCount => rbitFieldSet x bitOffset bitCount
  | .fieldUnset bitOffset bitCount => rbitFieldUnset x bitOffset bitCount
  | .fieldWrite bitOffset bitCount value => rbitFieldWrite x bitOffset bitCount value

def step (x : UintMax) (op : Op) : Option UintMax := if op.Valid then some (call x op) else none

end Ratlib.Bit
