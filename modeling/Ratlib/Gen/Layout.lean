import Ratlib.Gen.Model
import Mathlib.Data.List.Chain

/-! The block chain of ralcGen as a list: which headers the memory holds, where
the payloads lie, and what a reachable buffer looks like. -/
namespace Ratlib.Gen

/-- A block by its payload size and its unused flag. -/
structure Blk where
  size : Nat
  unused : Bool

def Blk.flag (b : Blk) : Nat := if b.unused then 1 else 0

theorem Blk.flag_lt (b : Blk) : b.flag < 2 := by
  rw [Blk.flag]
  split <;> omega

@[simp] theorem Blk.flag_used (n : Nat) : Blk.flag ⟨n, false⟩ = 0 := rfl
@[simp] theorem Blk.flag_unused (n : Nat) : Blk.flag ⟨n, true⟩ = 1 := rfl

/-- The bytes of consecutive blocks, headers included. -/
def span (P : Platform) : List Blk → Nat
  | [] => 0
  | b :: bs => sizeofBlock P + b.size + span P bs

/-- The payload size of the last block, `prev` if there is none. -/
def endSize : Nat → List Blk → Nat
  | prev, [] => prev
  | _, b :: bs => endSize b.size bs

/-- The headers from address `a` on are those of the blocks, `prev` being the size
of the block before them. -/
def Chain (P : Platform) (m : Mem) : Nat → Nat → List Blk → Prop
  | _, _, [] => True
  | a, prev, b :: bs => prevSizeUnused P m a = prev + b.flag ∧ blockSize P m a = b.size ∧
      Chain P m (data P a + b.size) b.size bs

/-- `ptr` is the payload, of `size` bytes, of a block in use. -/
def Object (P : Platform) : Nat → List Blk → Nat → Nat → Prop
  | _, [], _, _ => False
  | a, b :: bs, ptr, size => (b.unused = false ∧ ptr = data P a ∧ size = b.size) ∨
      Object P (data P a + b.size) bs ptr size

variable {P : Platform} {m m' : Mem} {p : RalcGen}

theorem sizeofBlock_ge : 8 ≤ sizeofBlock P := by
  have := P.sizeT_ge
  rw [sizeofBlock]
  omega

@[simp] theorem span_nil : span P [] = 0 := rfl
@[simp] theorem span_cons : span P (b :: bs) = sizeofBlock P + b.size + span P bs := rfl

@[simp] theorem span_append (xs ys : List Blk) : span P (xs ++ ys) = span P xs + span P ys := by
  induction xs with
  | nil => simp
  | cons b xs ih => simp [ih, Nat.add_assoc]

theorem span_pos (b : Blk) (bs : List Blk) : 0 < span P (b :: bs) := by
  have := sizeofBlock_ge (P := P)
  simp only [span_cons]
  omega

@[simp] theorem endSize_nil : endSize prev [] = prev := rfl
@[simp] theorem endSize_cons : endSize prev (b :: bs) = endSize b.size bs := rfl

@[simp] theorem endSize_append (xs ys : List Blk) :
    endSize prev (xs ++ ys) = endSize (endSize prev xs) ys := by
  induction xs generalizing prev with
  | nil => rfl
  | cons b xs ih => exact ih

theorem chain_append {xs ys : List Blk} : Chain P m a prev (xs ++ ys) ↔
    Chain P m a prev xs ∧ Chain P m (a + span P xs) (endSize prev xs) ys := by
  induction xs generalizing a prev with
  | nil => simp [Chain]
  | cons b xs ih =>
    have next : data P a + b.size + span P xs = a + span P (b :: xs) := by
      simp only [data, span_cons]
      omega
    simp only [List.cons_append, Chain, ih, next, endSize_cons, and_assoc]

theorem header_congr (same : ∀ x, a ≤ x → x < a + sizeofBlock P → m x = m' x) :
    prevSizeUnused P m' a = prevSizeUnused P m a ∧ blockSize P m' a = blockSize P m a := by
  constructor
  · apply (Platform.get_congr _).symm
    intro x hx
    exact same x hx.1 (by have := hx.2; rw [sizeofBlock]; omega)
  · apply (Platform.get_congr _).symm
    intro x hx
    exact same x (by have := hx.1; omega) (by have := hx.2; rw [sizeofBlock]; omega)

theorem chain_congr (same : Set.EqOn m m' (Set.Ico a (a + span P bs)))
    (chain : Chain P m a prev bs) : Chain P m' a prev bs := by
  induction bs generalizing a prev with
  | nil => trivial
  | cons b bs ih =>
    obtain ⟨first, size, rest⟩ := chain
    have header := header_congr (P := P) fun x low high => same ⟨low, by rw [span_cons]; omega⟩
    refine ⟨header.1.trans first, header.2.trans size, ih ?_ rest⟩
    · intro x hx
      have low := hx.1
      have high := hx.2
      simp only [data] at low high
      exact same ⟨by omega, by rw [span_cons]; omega⟩

/-- A chain may be entered with another previous size once its first word says so. -/
theorem chain_reprev (chain : Chain P m a prev (b :: bs))
    (word : prevSizeUnused P m' a = prev' + b.flag)
    (same : Set.EqOn m m' (Set.Ico (a + P.sizeT) (a + span P (b :: bs)))) :
    Chain P m' a prev' (b :: bs) := by
  obtain ⟨_, size, rest⟩ := chain
  refine ⟨word, ?_, chain_congr ?_ rest⟩
  · rw [← size]
    apply (Platform.get_congr _).symm
    intro x hx
    exact same ⟨hx.1, by have := hx.2; rw [span_cons, sizeofBlock]; omega⟩
  · intro x hx
    have low := hx.1
    have high := hx.2
    simp only [data, sizeofBlock] at low high
    exact same ⟨by omega, by rw [span_cons, sizeofBlock]; omega⟩

theorem object_append {xs ys : List Blk} : Object P a (xs ++ ys) ptr size ↔
    Object P a xs ptr size ∨ Object P (a + span P xs) ys ptr size := by
  induction xs generalizing a with
  | nil => simp [Object]
  | cons b xs ih =>
    have next : data P a + b.size + span P xs = a + span P (b :: xs) := by
      simp only [data, span_cons]
      omega
    simp only [List.cons_append, Object, ih, next, or_assoc]

theorem object_bounds {bs : List Blk} (object : Object P a bs ptr size) :
    a + sizeofBlock P ≤ ptr ∧ ptr + size ≤ a + span P bs := by
  induction bs generalizing a with
  | nil => exact object.elim
  | cons b bs ih =>
    simp only [span_cons]
    rcases object with ⟨_, rfl, rfl⟩ | rest
    · simp only [data]
      omega
    · have := ih rest
      simp only [data] at this
      omega

theorem object_aligned {bs : List Blk} (header : unit ∣ sizeofBlock P)
    (sizes : ∀ b ∈ bs, unit ∣ b.size) (start : unit ∣ a) (object : Object P a bs ptr size) :
    unit ∣ ptr := by
  induction bs generalizing a with
  | nil => exact object.elim
  | cons b bs ih =>
    have payload : unit ∣ data P a := Nat.dvd_add start header
    rcases object with ⟨-, rfl, -⟩ | object
    · exact payload
    · exact ih (fun c member => sizes c (List.mem_cons_of_mem _ member))
        (Nat.dvd_add payload (sizes b List.mem_cons_self)) object

theorem object_split {bs : List Blk} (object : Object P a bs ptr size) :
    ∃ pre post, bs = pre ++ ⟨size, false⟩ :: post ∧ ptr = data P (a + span P pre) := by
  induction bs generalizing a with
  | nil => exact object.elim
  | cons b bs ih =>
    rcases object with ⟨used, rfl, rfl⟩ | rest
    · refine ⟨[], bs, ?_, by simp⟩
      rw [← used, List.nil_append]
    · obtain ⟨pre, post, rfl, rfl⟩ := ih rest
      refine ⟨b :: pre, post, rfl, ?_⟩
      simp only [data, span_cons]
      omega

theorem object_middle (pre post : List Blk) :
    Object P a (pre ++ ⟨size, false⟩ :: post) (data P (a + span P pre)) size := by
  rw [object_append]
  exact Or.inr (Or.inl ⟨rfl, rfl, rfl⟩)

theorem object_separate {bs : List Blk} (first : Object P a bs ptr size)
    (second : Object P a bs ptr' size') :
    (ptr = ptr' ∧ size = size') ∨ ptr + size + sizeofBlock P ≤ ptr' ∨
      ptr' + size' + sizeofBlock P ≤ ptr := by
  induction bs generalizing a with
  | nil => exact first.elim
  | cons b bs ih =>
    rcases first with ⟨_, rfl, rfl⟩ | first
    · rcases second with ⟨_, rfl, rfl⟩ | second
      · exact Or.inl ⟨rfl, rfl⟩
      · have := object_bounds second
        omega
    · rcases second with ⟨_, rfl, rfl⟩ | second
      · have := object_bounds first
        omega
      · exact ih first second

/-- Writes into live payloads leave the headers alone. -/
theorem chain_payload {bs : List Blk} (chain : Chain P m a prev bs)
    (inside : ∀ x, a ≤ x → x < a + span P bs → m x ≠ m' x →
      ∃ ptr size, Object P a bs ptr size ∧ ptr ≤ x ∧ x < ptr + size) :
    Chain P m' a prev bs := by
  induction bs generalizing a prev with
  | nil => trivial
  | cons b bs ih =>
    obtain ⟨first, size, rest⟩ := chain
    have header : ∀ x, a ≤ x → x < a + sizeofBlock P → m x = m' x := by
      intro x low high
      by_contra changed
      obtain ⟨ptr, size, object, start, _⟩ := inside x low (by rw [span_cons]; omega) changed
      have := object_bounds object
      omega
    refine ⟨(header_congr header).1.trans first, (header_congr header).2.trans size, ih rest ?_⟩
    · intro x low high changed
      simp only [data] at low high
      obtain ⟨ptr, size, object, start, stop⟩ :=
        inside x (by omega) (by rw [span_cons]; omega) changed
      rcases object with ⟨_, rfl, rfl⟩ | object
      · simp only [data] at start stop
        omega
      · exact ⟨ptr, size, object, start, stop⟩

def Separated (bs : List Blk) : Prop := bs.IsChain fun x y => ¬(x.unused = true ∧ y.unused = true)

def HeadUsed (bs : List Blk) : Prop := ∀ b ∈ bs.head?, b.unused = false

def TailUsed (bs : List Blk) : Prop := ∀ b ∈ bs.getLast?, b.unused = false

theorem TailUsed.tail {b : Blk} (used : TailUsed (b :: bs)) : TailUsed bs := by
  intro c last
  refine used c ?_
  rw [List.getLast?_cons, last]
  rfl

theorem hole_followed {b : Blk} (separated : Separated (b :: bs)) (used : TailUsed (b :: bs))
    (hole : b.unused = true) : ∃ c rest, bs = c :: rest ∧ c.unused = false := by
  cases bs with
  | nil =>
    have := used b rfl
    rw [hole] at this
    cases this
  | cons c rest =>
    refine ⟨c, rest, rfl, ?_⟩
    have apart := (List.isChain_cons_cons.mp separated).1
    simpa [hole] using apart

/-- A unit that every block size is a multiple of. -/
structure Grain (P : Platform) where
  unit : Nat
  even : 2 ∣ unit
  alignment : unit ∣ P.alignment
  header : unit ∣ sizeofBlock P

/-- Sizes are even on every platform, -/
def Grain.two (P : Platform) : Grain P := ⟨2, Nat.dvd_refl 2, P.alignment_even, ⟨P.sizeT, rfl⟩⟩

/-- and aligned where headers are. -/
def Grain.aligned {P : Platform} (header : P.alignment ∣ sizeofBlock P) : Grain P :=
  ⟨P.alignment, P.alignment_even, Nat.dvd_refl _, header⟩

/-- A buffer as every run of operations leaves it. -/
structure Layout {P : Platform} (g : Grain P) (p : RalcGen) (m : Mem) (bs : List Blk) : Prop where
  chain : Chain P m p.buf 0 bs
  extent : span P bs = p.size
  within : p.size ≤ p.cap
  addressable : 0 < p.buf ∧ p.buf + p.cap ≤ P.sizeMax
  aligned : ∀ b ∈ bs, g.unit ∣ b.size
  separated : Separated bs
  tailUsed : TailUsed bs

end Ratlib.Gen
