import Ratlib.Library.Formats

/-! The byte-order helpers of rat_rorder.c. `RAT_CONFIG_BYTEORDER_LITTLE_ENDIAN` is defined
where the host stores its integers with the lowest byte first, which is how `memcpy` finds
and leaves them; the other hosts store the highest first. -/
namespace Ratlib.Order

inductive ByteOrder where
  | littleEndian
  | bigEndian
  deriving DecidableEq

/-- An integer of `n` bytes as the host stores it. -/
def ByteOrder.host (n : Nat) : ByteOrder → Format (8 * n)
  | .littleEndian => .littleEndian n
  | .bigEndian => .bigEndian n

/-- `FUNCDEF_READ(_func, _bits)`: `*out_value` and `sizeof(value)`. -/
def funcdefRead (n : Nat) (func : ByteOrder → BitVec (8 * n) → BitVec (8 * n)) (host : ByteOrder) (m : Mem)
    (src : Nat) : BitVec (8 * n) × Nat :=
  (func host ((host.host n).value (m.read src n)), n)

def funcdefWrite (n : Nat) (func : ByteOrder → BitVec (8 * n) → BitVec (8 * n)) (host : ByteOrder) (m : Mem)
    (dst : Nat) (value : BitVec (8 * n)) : Mem × Nat :=
  (m.write dst ((host.host n).bytes (func host value)), n)

def rorderFlip16 (value : BitVec 16) : BitVec 16 := (value >>> 8) ||| (value <<< 8)

def rorderFlip32 (value : BitVec 32) : BitVec 32 :=
  ((value &&& 0x000000ff#32) <<< 24) ||| ((value &&& 0x0000ff00#32) <<< 8) |||
    ((value &&& 0x00ff0000#32) >>> 8) ||| ((value &&& 0xff000000#32) >>> 24)

def rorderFlip64 (value : BitVec 64) : BitVec 64 :=
  ((value &&& 0x00000000000000ff#64) <<< 56) ||| ((value &&& 0x000000000000ff00#64) <<< 40) |||
    ((value &&& 0x0000000000ff0000#64) <<< 24) ||| ((value &&& 0x00000000ff000000#64) <<< 8) |||
    ((value &&& 0x000000ff00000000#64) >>> 8) ||| ((value &&& 0x0000ff0000000000#64) >>> 24) |||
    ((value &&& 0x00ff000000000000#64) >>> 40) ||| ((value &&& 0xff00000000000000#64) >>> 56)

def rorderLe16 : ByteOrder → BitVec 16 → BitVec 16
  | .littleEndian, value => value
  | .bigEndian, value => rorderFlip16 value

def rorderBe16 : ByteOrder → BitVec 16 → BitVec 16
  | .littleEndian, value => rorderFlip16 value
  | .bigEndian, value => value

def rorderLe32 : ByteOrder → BitVec 32 → BitVec 32
  | .littleEndian, value => value
  | .bigEndian, value => rorderFlip32 value

def rorderBe32 : ByteOrder → BitVec 32 → BitVec 32
  | .littleEndian, value => rorderFlip32 value
  | .bigEndian, value => value

def rorderLe64 : ByteOrder → BitVec 64 → BitVec 64
  | .littleEndian, value => value
  | .bigEndian, value => rorderFlip64 value

def rorderBe64 : ByteOrder → BitVec 64 → BitVec 64
  | .littleEndian, value => rorderFlip64 value
  | .bigEndian, value => value

def rorderLe16Read := funcdefRead 2 rorderLe16
def rorderLe16Write := funcdefWrite 2 rorderLe16
def rorderBe16Read := funcdefRead 2 rorderBe16
def rorderBe16Write := funcdefWrite 2 rorderBe16
def rorderFlip16Read := funcdefRead 2 fun _ => rorderFlip16
def rorderFlip16Write := funcdefWrite 2 fun _ => rorderFlip16
def rorderLe32Read := funcdefRead 4 rorderLe32
def rorderLe32Write := funcdefWrite 4 rorderLe32
def rorderBe32Read := funcdefRead 4 rorderBe32
def rorderBe32Write := funcdefWrite 4 rorderBe32
def rorderFlip32Read := funcdefRead 4 fun _ => rorderFlip32
def rorderFlip32Write := funcdefWrite 4 fun _ => rorderFlip32
def rorderLe64Read := funcdefRead 8 rorderLe64
def rorderLe64Write := funcdefWrite 8 rorderLe64
def rorderBe64Read := funcdefRead 8 rorderBe64
def rorderBe64Write := funcdefWrite 8 rorderBe64
def rorderFlip64Read := funcdefRead 8 fun _ => rorderFlip64
def rorderFlip64Write := funcdefWrite 8 fun _ => rorderFlip64

end Ratlib.Order
