import Ratlib.Cmp.Orders
import Ratlib.Order.Model

/-! The comparators of integers of rat_rcmp.c. Like those of byte strings they tell an order
on the bytes of elements, that of the numbers which the host reads from them. -/
namespace Ratlib.Cmp

open Arr Ratlib.Order

def cmpNumbers (left right : Int) : Int :=
  (if left > right then 1 else 0) - (if left < right then 1 else 0)

/-- The object of `n` bytes at `a`, as the host reads it. -/
def readNumber (n : Nat) (number : BitVec (8 * n) → Int) (host : ByteOrder) (bytes : List UInt8) : Int :=
  number ((host.host n).value bytes)

/-- A comparator of two objects of `n` bytes, whatever their sizes are said to be. -/
def rcmpNumber (n : Nat) (number : BitVec (8 * n) → Int) (host : ByteOrder) : Rcmp := fun m left _ right _ =>
  some (cmpNumbers (readNumber n number host (m.read left n)) (readNumber n number host (m.read right n)))

def unsigned (v : BitVec w) : Int := v.toNat

def rcmpUint16 := rcmpNumber 2 unsigned
def rcmpUint32 := rcmpNumber 4 unsigned
def rcmpUint64 := rcmpNumber 8 unsigned
def rcmpInt8 := rcmpNumber 1 BitVec.toInt
def rcmpInt16 := rcmpNumber 2 BitVec.toInt
def rcmpInt32 := rcmpNumber 4 BitVec.toInt
def rcmpInt64 := rcmpNumber 8 BitVec.toInt

/-- On elements of `n` bytes the comparator tells the order `lt` of their bytes. -/
def Sorts (cmpFn : Rcmp) (n : Nat) (lt : List UInt8 → List UInt8 → Prop) : Prop :=
  ∀ m left right, ∃ told, cmpFn m left n right n = some told ∧ Tells lt (m.read left n) (m.read right n) told

theorem cmpNumbers_tells (a b : Int) : Tells (· < ·) a b (cmpNumbers a b) := by
  rw [cmpNumbers]
  constructor <;> split <;> split <;> omega

theorem readNumber_inj {number : BitVec (8 * n) → Int} (injective : Function.Injective number)
    (length : x.length = n) (length' : y.length = n) (host : ByteOrder) :
    readNumber n number host x = readNumber n number host y ↔ x = y := by
  refine ⟨fun same => ?_, congrArg _⟩
  have width : 8 * n / 8 = n := by omega
  have values := congrArg (host.host n).bytes (injective same)
  rwa [(host.host n).bytes_value x (length.trans width.symm),
    (host.host n).bytes_value y (length'.trans width.symm)] at values

theorem rcmpNumber_sorts {number : BitVec (8 * n) → Int} (injective : Function.Injective number)
    (host : ByteOrder) : Sorts (rcmpNumber n number host) n
      fun x y => readNumber n number host x < readNumber n number host y := by
  intro m left right
  refine ⟨_, rfl, (cmpNumbers_tells _ _).congr Iff.rfl ?_ Iff.rfl⟩
  exact (readNumber_inj injective (Mem.read_length ..) (Mem.read_length ..) host).symm

/-- A comparator for elements of `n` bytes, with the order that it tells. -/
structure Comparator (n : Nat) where
  fn : Rcmp
  lt : List UInt8 → List UInt8 → Prop
  trans : IsTrans _ lt
  sorts : Sorts fn n lt

namespace Comparator

/-- `rcmp_buf` and `rcmp_str` compare elements of any size. -/
def buf (n : Nat) : Comparator n where
  fn := rcmpBuf
  lt := List.Shortlex (· < ·)
  trans := shortlex_isTrans
  sorts _ _ _ := ⟨_, rfl, rcmpBuf_tells rfl⟩

def str (n : Nat) : Comparator n where
  fn := rcmpStr
  lt := List.Lex (· < ·)
  trans := lex_isTrans
  sorts _ _ _ := ⟨_, rfl, rcmpStr_tells rfl⟩

def number (n : Nat) (number : BitVec (8 * n) → Int) (injective : Function.Injective number)
    (host : ByteOrder) : Comparator n where
  fn := rcmpNumber n number host
  lt x y := readNumber n number host x < readNumber n number host y
  trans := ⟨fun _ _ _ => Int.lt_trans⟩
  sorts := rcmpNumber_sorts injective host

theorem unsigned_injective : Function.Injective (unsigned : BitVec w → Int) :=
  fun _ _ same => BitVec.eq_of_toNat_eq (Int.ofNat_inj.mp same)

theorem signed_injective : Function.Injective (BitVec.toInt : BitVec w → Int) :=
  fun _ _ same => BitVec.eq_of_toInt_eq same

def uint (n : Nat) : ByteOrder → Comparator n := number n unsigned unsigned_injective

def int (n : Nat) : ByteOrder → Comparator n := number n BitVec.toInt signed_injective

theorem uint_one (host : ByteOrder) : (uint 1 host).fn = rcmpUint8 := by
  funext m left leftSize right rightSize
  have value (a : Nat) : readNumber 1 unsigned host (m.read a 1) = (m a).toNat := by
    have small := (m a).toNat_lt
    have digit : ((Format.littleEndian 1).value [m a]).toNat = (m a).toNat := by
      rw [Format.littleEndian, BitVec.toNat_ofNat, ofDigits, ofDigits]
      omega
    rw [Mem.read_succ, Mem.read_zero, readNumber, unsigned]
    cases host with
    | littleEndian => rw [ByteOrder.host, digit]
    | bigEndian =>
      change (((Format.littleEndian 1).value [m a]).toNat : Int) = _
      rw [digit]
  change some (cmpNumbers (readNumber 1 unsigned host (m.read left 1))
    (readNumber 1 unsigned host (m.read right 1))) = _
  rw [value, value, cmpNumbers, rcmpUint8]
  simp only [gt_iff_lt, Int.ofNat_lt, UInt8.lt_iff_toNat_lt]

/-- The comparators of rcmp.h for numbers of one to eight bytes are among them. -/
theorem fn_number (host : ByteOrder) :
    ((uint 1 host).fn = rcmpUint8 ∧ (uint 2 host).fn = rcmpUint16 host ∧
        (uint 4 host).fn = rcmpUint32 host ∧ (uint 8 host).fn = rcmpUint64 host) ∧
      (int 1 host).fn = rcmpInt8 host ∧ (int 2 host).fn = rcmpInt16 host ∧
        (int 4 host).fn = rcmpInt32 host ∧ (int 8 host).fn = rcmpInt64 host :=
  ⟨⟨uint_one host, rfl, rfl, rfl⟩, rfl, rfl, rfl, rfl⟩

end Comparator

end Ratlib.Cmp
