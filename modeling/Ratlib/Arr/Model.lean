import Ratlib.Platform

/-! The functions of rat_rarr.c. The shifting helpers come with the pointer each returns;
they assert `elemSize`, `index <= arrLen` and a run inside the array. -/
namespace Ratlib.Arr

variable (P : Platform)

/-- `rarr_insert`; `arrLen` is the length after the insertion. -/
def rarrInsert (m : Mem) (arr elemSize arrLen index count : Nat) : Nat × Mem :=
  let b := arr + P.mul index elemSize
  (b, m.copy (b + P.mul count elemSize) b (P.mul (P.sub (P.sub arrLen index) count) elemSize))

/-- `rarr_remove`; `arrLen` is the length before the removal. -/
def rarrRemove (m : Mem) (arr elemSize arrLen index count : Nat) : Nat × Mem :=
  let b := arr + P.mul index elemSize
  (b, m.copy b (b + P.mul count elemSize) (P.mul (P.sub (P.sub arrLen index) count) elemSize))

/-- `rarr_resize`; `arrLen` is the length after a growth, and before any other resize. -/
def rarrResize (m : Mem) (arr elemSize arrLen index oldCount newCount : Nat) : Nat × Mem :=
  if oldCount < newCount then
    rarrInsert P m arr elemSize arrLen (P.add index oldCount) (P.sub newCount oldCount)
  else rarrRemove P m arr elemSize arrLen (P.add index newCount) (P.sub oldCount newCount)

def ResizeAsserts (elemSize arrLen index oldCount newCount : Nat) : Prop :=
  0 < elemSize ∧ index ≤ arrLen ∧
    if oldCount < newCount then newCount ≤ arrLen - index else oldCount ≤ arrLen - index

/-- `rcmp` with the memory it reads. Only the sign of the result is part of the contract;
`none` is a call on memory it may not read. -/
abbrev Rcmp := Mem → (left leftSize right rightSize : Nat) → Option Int

def rcmpUint8 : Rcmp := fun m left _ right _ =>
  some ((if m left > m right then 1 else 0) - (if m left < m right then 1 else 0))

/-- The loop of the two searches, which goes on behind `mid` where `onward` says so. A
round leaves less than half of the interval, so `arrLen` rounds are more than enough. -/
def searchLoop (cmpFn : Rcmp) (m : Mem) (arr elemSize target : Nat) (onward : Int → Bool) :
    Nat → Nat → Nat → Option Nat
  | 0, left, right => if left < right then none else some left
  | rounds + 1, left, right =>
    if left < right then do
      let mid := P.add left (P.sub right left / 2)
      let cmp ← cmpFn m (arr + P.mul mid elemSize) elemSize target elemSize
      if onward cmp then searchLoop cmpFn m arr elemSize target onward rounds (P.add mid 1) right
      else searchLoop cmpFn m arr elemSize target onward rounds left mid
    else some left

def rarrBinSearch (m : Mem) (arr elemSize arrLen : Nat) (cmpFn : Rcmp) (target : Nat) :
    Option (Bool × Nat) := do
  let left ← searchLoop P cmpFn m arr elemSize target (· < 0) arrLen 0 arrLen
  if left < arrLen then
    let cmp ← cmpFn m (arr + P.mul left elemSize) elemSize target elemSize
    some (cmp == 0, left)
  else some (false, left)

def rarrBinSearchDesc (m : Mem) (arr elemSize arrLen : Nat) (cmpFn : Rcmp) (target : Nat) :
    Option (Bool × Nat) := do
  let left ← searchLoop P cmpFn m arr elemSize target (· ≥ 0) arrLen 0 arrLen
  if left > 0 then
    let cmp ← cmpFn m (arr + P.mul (P.sub left 1) elemSize) elemSize target elemSize
    if cmp = 0 then some (true, P.sub left 1) else some (false, left)
  else some (false, left)

end Ratlib.Arr
