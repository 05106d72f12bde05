import Ratlib.Platform

/-! The ring buffer of rat_rring.c, over storage that its caller provides. -/
namespace Ratlib.Rring

structure RRing where
  buf : Nat
  elemSize : Nat
  cap : Nat
  first : Nat
  count : Nat

def rringInit (buf elemSize cap : Nat) : RRing := ⟨buf, elemSize, cap, 0, 0⟩

def rringClear (p : RRing) : RRing := { p with first := 0, count := 0 }

variable (P : Platform)

/-- `if (p->cap <= index) index -= p->cap;` -/
def wrapIndex (p : RRing) (index : Nat) : Nat := if p.cap ≤ index then P.sub index p.cap else index

def elem (p : RRing) (index : Nat) : Nat := p.buf + P.mul index p.elemSize

def rringPush (p : RRing) : Nat × RRing :=
  if p.count = p.cap then (0, p)
  else
    let index := wrapIndex P p (P.add p.first p.count)
    let p := { p with count := P.add p.count 1 }
    (elem P p index, p)

def rringPushFront (p : RRing) : Nat × RRing :=
  if p.count = p.cap then (0, p)
  else
    let p := { p with first := if p.first ≠ 0 then P.sub p.first 1 else P.sub p.cap 1 }
    let p := { p with count := P.add p.count 1 }
    (elem P p p.first, p)

def rringPop (p : RRing) (count : Nat) : RRing := { p with count := P.sub p.count count }

def rringPopFront (p : RRing) (count : Nat) : RRing :=
  { p with first := wrapIndex P p (P.add p.first count), count := P.sub p.count count }

def rringAt (p : RRing) (index : Nat) : Nat := elem P p (wrapIndex P p (P.add index p.first))

def rringLast (p : RRing) (index : Nat) : Nat :=
  elem P p (wrapIndex P p (P.sub (P.sub (P.add p.first p.count) 1) index))

end Ratlib.Rring
