import Ratlib.Arr.Model

/-! The comparators of byte strings of rat_rcmp.c, with the functions of string.h that
they call. Characters compare as `unsigned char`. -/
namespace Ratlib.Cmp

open Arr

def cmp (left right : Nat) : Int := (if left > right then 1 else 0) - (if left < right then 1 else 0)

def byteCmp (m : Mem) (left right : Nat) : Int := (m left).toNat - (m right).toNat

/-- `memcmp`; only the sign of the result is specified. -/
def memcmp (m : Mem) (left right : Nat) : Nat → Int
  | 0 => 0
  | n + 1 =>
    if byteCmp m left right ≠ 0 then byteCmp m left right else memcmp m (left + 1) (right + 1) n

/-- `strcmp`, which has no result where neither string ends within `rounds` characters. -/
def strcmp (m : Mem) : (rounds left right : Nat) → Option Int
  | 0, _, _ => none
  | rounds + 1, left, right =>
    if byteCmp m left right ≠ 0 then some (byteCmp m left right)
    else if m left = 0 then some 0
    else strcmp m rounds (left + 1) (right + 1)

def rcmpBuf : Rcmp := fun m left leftSize right rightSize =>
  let sizeCmp := cmp leftSize rightSize
  some (if sizeCmp ≠ 0 then sizeCmp else memcmp m left right leftSize)

def rcmpStr : Rcmp := fun m left leftSize right rightSize =>
  let common := memcmp m left right (if leftSize < rightSize then leftSize else rightSize)
  some (if common ≠ 0 then common else cmp leftSize rightSize)

/-- `rcmp_cstr`. A string in memory ends before there are no more addresses. -/
def rcmpCstr (P : Platform) : Rcmp := fun m left _ right _ => strcmp m (P.sizeMax + 1) left right

end Ratlib.Cmp
