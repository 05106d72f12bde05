import Ratlib.Alloc.Interface
import Ratlib.Hash.Model

/-! The hash map of rat_rmap.c over two allocators, one for the bucket array and one for
the elements. Keys are passed by value. Loops along a chain count down from the number
of elements plus one; `none` means that a loop ran out, which a map with acyclic chains
never does. Functions that call an allocator return the map and the world as well. -/
namespace Ratlib.Rmap

open Hash

/-- `rmap`, without its allocators, which the functions take. -/
structure RMap where
  buckets : Nat
  hash : List UInt8 → RHash → UInt32
  equals : List UInt8 → List UInt8 → Bool
  hashKey0 : UInt32
  hashKey1 : UInt32
  bucketCount : Nat
  count : Nat

def initBucketCount : Nat := 4

variable (P : Platform)

/-- `sizeof(elemHeader)`: `next`, `hashVal` and its padding, `keySize`. -/
def sizeofHeader : Nat := 3 * P.sizeT

def elemSize (keySize valueSize : Nat) : Nat :=
  P.add (P.add (P.ratAlign (sizeofHeader P)) (P.ratAlign keySize)) (P.ratAlign valueSize)

/-- The members of `elemHeader`; `next` is the first. -/
def next (m : Mem) (e : Nat) : Nat := P.get m e
def hashVal (m : Mem) (e : Nat) : UInt32 := UInt32.ofNat (m.load (e + P.sizeT) 4)
def keySize (m : Mem) (e : Nat) : Nat := P.get m (e + 2 * P.sizeT)

def setHashVal (m : Mem) (e : Nat) (value : UInt32) : Mem := m.store (e + P.sizeT) 4 value.toNat
def setKeySize (m : Mem) (e value : Nat) : Mem := P.put m (e + 2 * P.sizeT) value

def elemKey (e : Nat) : Nat := e + elemSize P 0 0
def elemValue (m : Mem) (e : Nat) : Nat := e + elemSize P (keySize P m e) 0

def storedKey (m : Mem) (e : Nat) : List UInt8 := m.read (elemKey P e) (keySize P m e)

def bucket (buckets index : Nat) : Nat := buckets + index * P.sizeT

/-- `hashVal & (bucketCount - 1)` -/
def bucketIndex (value : UInt32) (bucketCount : Nat) : Nat :=
  value.toNat &&& P.sub bucketCount 1

def defaultHash (key : List UInt8) (hash : RHash) : UInt32 := rhashResult (rhashAdd P hash key)
def defaultEquals (key otherKey : List UInt8) : Bool := key == otherKey

def rmapInit (key0 key1 : UInt32) (hash : Option (List UInt8 → RHash → UInt32))
    (equals : Option (List UInt8 → List UInt8 → Bool)) : RMap where
  buckets := 0
  hash := hash.getD (defaultHash P)
  equals := equals.getD defaultEquals
  hashKey0 := key0
  hashKey1 := key1
  bucketCount := 0
  count := 0

def getHashVal (p : RMap) (key : List UInt8) : UInt32 := p.hash key (rhashInit p.hashKey0 p.hashKey1)

/-- The condition under which a lookup takes an element for the one of the key. -/
def found (p : RMap) (m : Mem) (value : UInt32) (key : List UInt8) (e : Nat) : Bool :=
  hashVal P m e == value && p.equals key (storedKey P m e)

/-- The loop of the lookups: the cell that points to the element of the key, as
`prevNext_pp` does, if there is one. -/
def findFrom (p : RMap) (m : Mem) (value : UInt32) (key : List UInt8) :
    Nat → Nat → Option (Option Nat)
  | 0, _ => none
  | fuel + 1, prevNext =>
    let e := P.get m prevNext
    if e = 0 then some none
    else if found P p m value key e then some (some prevNext)
    else findFrom p m value key fuel e

/-- The lookup in the chain of the key; nothing is found in a map without buckets. -/
def find (p : RMap) (m : Mem) (key : List UInt8) : Option (Option Nat) :=
  let value := getHashVal p key
  if p.bucketCount ≠ 0 then
    findFrom P p m value key (p.count + 1) (bucket P p.buckets (bucketIndex P value p.bucketCount))
  else some none

/-- The inner loop of `rehash`, from the element `e` of an old chain. -/
def relinkChain (newBuckets newBucketCount : Nat) : Nat → Mem → Nat → Option Mem
  | 0, _, _ => none
  | fuel + 1, m, e =>
    if e = 0 then some m
    else
      let after := next P m e
      let cell := bucket P newBuckets (bucketIndex P (hashVal P m e) newBucketCount)
      let m := P.put m e (P.get m cell)
      let m := P.put m cell e
      relinkChain newBuckets newBucketCount fuel m after

/-- The outer loop of `rehash`, for `n` buckets from the bucket `i`. -/
def relinkBuckets (p : RMap) (newBuckets newBucketCount : Nat) : Nat → Nat → Mem → Option Mem
  | 0, _, m => some m
  | n + 1, i, m =>
    (relinkChain P newBuckets newBucketCount (p.count + 1) m (P.get m (bucket P p.buckets i))).bind
      fun m => relinkBuckets p newBuckets newBucketCount n (i + 1) m

variable {σ : Type u} (B E : Ralc σ)

def rehash (p : RMap) (w : World σ) (newBucketCount : Nat) : Option (Bool × RMap × World σ) :=
  let newBucketsSize := P.mul P.sizeT newBucketCount
  let (newBuckets, w) := ralcAlloc B w newBucketsSize
  if newBuckets.ptr = 0 then some (false, p, w)
  else
    let w := { w with mem := w.mem.fill newBuckets.ptr newBucketsSize 0 }
    let p' := { p with buckets := newBuckets.ptr, bucketCount := newBucketCount }
    if p.bucketCount ≠ 0 then
      (relinkBuckets P p newBuckets.ptr newBucketCount p.bucketCount 0 w.mem).map fun m =>
        (true, p', ralcFree B { w with mem := m } p.buckets)
    else some (true, p', w)

/-- The end of `add`, with room in the table. -/
def addElem (p : RMap) (w : World σ) (value : UInt32) (key : List UInt8) (valueSize : Nat) :
    Nat × RMap × World σ :=
  let cell := bucket P p.buckets (bucketIndex P value p.bucketCount)
  let (newElem, w) := ralcAlloc E w (elemSize P key.length valueSize)
  if newElem.ptr = 0 then (0, p, w)
  else
    let m := P.put w.mem newElem.ptr (P.get w.mem cell)
    let m := setHashVal P m newElem.ptr value
    let m := setKeySize P m newElem.ptr key.length
    let m := m.write (elemKey P newElem.ptr) key
    let m := P.put m cell newElem.ptr
    (elemValue P m newElem.ptr, { p with count := P.add p.count 1 }, { w with mem := m })

def add (p : RMap) (w : World σ) (value : UInt32) (key : List UInt8) (valueSize : Nat) :
    Option (Nat × RMap × World σ) :=
  if p.count ≥ p.bucketCount / 2 + p.bucketCount / 4 then
    (rehash P B p w (if p.bucketCount ≠ 0 then P.mul p.bucketCount 2 else initBucketCount)).map
      fun (success, p, w) =>
        if success then addElem P E p w value key valueSize else (0, p, w)
  else some (addElem P E p w value key valueSize)

/-- The branch of `rmap_set` that found the key, in the element `prevNext` points to. -/
def setElem (p : RMap) (w : World σ) (value : UInt32) (key : List UInt8) (valueSize prevNext : Nat) :
    Nat × RMap × World σ :=
  let store (newElem : Nat) (w : World σ) : Nat × RMap × World σ :=
    let m := setKeySize P w.mem newElem key.length
    let m := m.write (elemKey P newElem) key
    let m := P.put m prevNext newElem
    (elemValue P m newElem, p, { w with mem := m })
  let e := P.get w.mem prevNext
  let newElemSize := elemSize P key.length valueSize
  let (newElem, w) := ralcRealloc E w e newElemSize
  if newElem.ptr ≠ 0 then store newElem.ptr w
  else
    let (newElem, w) := ralcAlloc E w newElemSize
    if newElem.ptr = 0 then (0, p, w)
    else
      let m := P.put w.mem newElem.ptr (next P w.mem e)
      let m := setHashVal P m newElem.ptr value
      store newElem.ptr (ralcFree E { w with mem := m } e)

def rmapSet (p : RMap) (w : World σ) (key : List UInt8) (valueSize : Nat) :
    Option (Nat × RMap × World σ) :=
  let value := getHashVal p key
  (find P p w.mem key).bind fun
    | some prevNext => some (setElem P E p w value key valueSize prevNext)
    | none => add P B E p w value key valueSize

def rmapGet (p : RMap) (m : Mem) (key : List UInt8) : Option Nat :=
  (find P p m key).map fun
    | some prevNext => elemValue P m (P.get m prevNext)
    | none => 0

/-- `rmap_getOrAdd`, with what it writes through `out_value_p`. -/
def rmapGetOrAdd (p : RMap) (w : World σ) (key : List UInt8) (valueSize : Nat) :
    Option (Bool × Nat × RMap × World σ) :=
  let value := getHashVal p key
  (find P p w.mem key).bind fun
    | some prevNext => some (true, elemValue P w.mem (P.get w.mem prevNext), p, w)
    | none => (add P B E p w value key valueSize).map fun result => (false, result)

def rmapRemove (p : RMap) (w : World σ) (key : List UInt8) : Option (Bool × RMap × World σ) :=
  (find P p w.mem key).map fun
    | some prevNext =>
      let e := P.get w.mem prevNext
      let w := { w with mem := P.put w.mem prevNext (next P w.mem e) }
      (true, { p with count := P.sub p.count 1 }, ralcFree E w e)
    | none => (false, p, w)

/-- The inner loop of `rmap_clear`. -/
def freeChain : Nat → World σ → Nat → Option (World σ)
  | 0, _, _ => none
  | fuel + 1, w, e =>
    if e = 0 then some w
    else
      let after := next P w.mem e
      freeChain fuel (ralcFree E w e) after

/-- The outer loop of `rmap_clear`, for `n` buckets from the bucket `i`. -/
def freeBuckets (p : RMap) : Nat → Nat → World σ → Option (World σ)
  | 0, _, w => some w
  | n + 1, i, w =>
    (freeChain P E (p.count + 1) w (P.get w.mem (bucket P p.buckets i))).bind fun w =>
      freeBuckets p n (i + 1) w

def rmapClear (p : RMap) (w : World σ) : Option (RMap × World σ) :=
  if p.bucketCount = 0 then some (p, w)
  else
    (freeBuckets P E p p.bucketCount 0 w).map fun w =>
      ({ p with buckets := 0, bucketCount := 0, count := 0 }, ralcFree B w p.buckets)

/-- `rmap_iterAll`, without its map, which the functions take. -/
structure IterAll where
  bucketIndex : Nat
  next : Nat
  prevNext : Nat
  last : Nat
  lastPrevNext : Nat

def rmapGetAll : IterAll := ⟨0, 0, 0, 0, 0⟩

/-- The loop of `rmap_iterAll_next`, over `n` buckets. -/
def nextChain (p : RMap) (m : Mem) : Nat → IterAll → IterAll
  | 0, it => it
  | n + 1, it =>
    if it.next ≠ 0 then it
    else
      let prevNext := bucket P p.buckets it.bucketIndex
      nextChain p m n
        { it with bucketIndex := it.bucketIndex + 1, next := P.get m prevNext, prevNext := prevNext }

/-- `rmap_iterAll_next`: the value pointer, and what it writes to `out_key_p`, as bytes. -/
def rmapIterAllNext (p : RMap) (m : Mem) (it : IterAll) : Nat × List UInt8 × IterAll :=
  let it := { it with last := 0, lastPrevNext := 0 }
  let it := nextChain P p m (p.bucketCount - it.bucketIndex) it
  if it.next = 0 then (0, [], it)
  else
    let e := it.next
    let it := { it with last := e, lastPrevNext := it.prevNext, next := next P m e, prevNext := e }
    (elemValue P m e, storedKey P m e, it)

def rmapIterAllRemoveElem (p : RMap) (w : World σ) (it : IterAll) : IterAll × RMap × World σ :=
  let e := it.last
  let w := { w with mem := P.put w.mem it.lastPrevNext (next P w.mem e) }
  ({ it with prevNext := it.lastPrevNext, last := 0, lastPrevNext := 0 },
    { p with count := P.sub p.count 1 }, ralcFree E w e)

/-- `rmap_elemAllocSize` asserts that no sum wraps; the allocators take requests of up
to `limit` bytes. -/
def SizeAsserts (limit keySize valueSize : Nat) : Prop :=
  keySize ≤ P.sizeMax - (P.alignment - 1) ∧ valueSize ≤ P.sizeMax - (P.alignment - 1) ∧
    P.ratAlign (sizeofHeader P) + P.ratAlign keySize + P.ratAlign valueSize ≤ P.sizeMax ∧
      P.ratAlign (sizeofHeader P) + P.ratAlign keySize + P.ratAlign valueSize ≤ limit

def grownCount (bucketCount : Nat) : Nat := if bucketCount ≠ 0 then bucketCount * 2 else initBucketCount

/-- What the allocator of the buckets takes, where `add` calls `rehash`. -/
def GrowAsserts (limit : Nat) (p : RMap) : Prop :=
  p.count ≥ p.bucketCount / 2 + p.bucketCount / 4 → P.sizeT * grownCount p.bucketCount ≤ limit

instance (limit keySize valueSize : Nat) : Decidable (SizeAsserts P limit keySize valueSize) :=
  inferInstanceAs (Decidable (_ ∧ _ ∧ _ ∧ _))

instance (limit : Nat) (p : RMap) : Decidable (GrowAsserts P limit p) :=
  inferInstanceAs (Decidable (_ → _))

end Ratlib.Rmap
