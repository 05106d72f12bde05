import Ratlib.Rmap.Model
import Ratlib.Library.Buckets
import Ratlib.Library.Paths

/-! The elements and the bucket array of a hash map in memory: where the words that link
the chains lie, and that writing one of them changes no other and no stored key. -/
namespace Ratlib.Rmap

/-- An element of the map: where it lies, its key, and the value size it was made for. -/
structure Elem where
  addr : Nat
  key : List UInt8
  valueSize : Nat

variable {P : Platform} {m m' : Mem} {e : Elem} {σ : Type u} {ι : Type v} {A : Ralc σ}
  {ok : World σ → Blocks ι → Prop} {w : World σ} {L L' : Blocks ι} {owner bo eo : ι} {value : UInt32}

def headerSize (P : Platform) : Nat := P.ratAlign (sizeofHeader P)

def Elem.cell (P : Platform) (e : Elem) : Nat := e.addr + (headerSize P + P.ratAlign e.key.length)

def Elem.extent (P : Platform) (e : Elem) : Nat :=
  headerSize P + P.ratAlign e.key.length + e.valueSize

structure Elem.Fits (P : Platform) (e : Elem) : Prop where
  key : e.key.length + (P.alignment - 1) ≤ P.sizeMax
  sum : headerSize P + P.ratAlign e.key.length ≤ P.sizeMax

/-- The element is in memory, with this hash value. -/
structure Stored (P : Platform) (m : Mem) (value : UInt32) (e : Elem) : Prop where
  hash : hashVal P m e.addr = value
  size : keySize P m e.addr = e.key.length
  key : m.read (e.addr + headerSize P) e.key.length = e.key

theorem sizeofHeader_le : sizeofHeader P ≤ headerSize P := by
  apply Platform.le_ratAlign
  have := P.sizeT_cases
  have := P.alignment_le
  have := P.sizeMax_ge
  simp only [sizeofHeader]
  omega

theorem ratAlign_zero : P.ratAlign 0 = 0 := by
  have := P.alignment_pos
  have := P.alignment_le
  have := P.sizeMax_ge
  rw [Platform.ratAlign_eq (by omega), Nat.zero_add, Nat.div_eq_of_lt (by omega), Nat.zero_mul]

theorem elemSize_zero (fits : headerSize P + P.ratAlign length ≤ P.sizeMax) :
    elemSize P length 0 = headerSize P + P.ratAlign length := by
  rw [elemSize, ratAlign_zero]
  change P.add (P.add (headerSize P) (P.ratAlign length)) 0 = _
  rw [Platform.add_of_le fits, Platform.add_of_le (by omega), Nat.add_zero]

theorem elemKey_eq (e : Nat) : elemKey P e = e + headerSize P := by
  have bound : headerSize P + P.ratAlign 0 ≤ P.sizeMax := by
    rw [ratAlign_zero]
    exact Platform.ratAlign_le _
  rw [elemKey, elemSize_zero bound, ratAlign_zero, Nat.add_zero]

theorem Stored.cell (stored : Stored P m value e) (fits : e.Fits P) :
    elemValue P m e.addr = e.cell P := by
  rw [elemValue, stored.size, elemSize_zero fits.sum, Elem.cell]

theorem Stored.storedKey (stored : Stored P m value e) : storedKey P m e.addr = e.key := by
  rw [Rmap.storedKey, stored.size, elemKey_eq, stored.key]

theorem Elem.Fits.key_le (fits : e.Fits P) : e.key.length ≤ P.ratAlign e.key.length :=
  Platform.le_ratAlign fits.key

/-- The bytes of an element behind its `next`. -/
def Elem.body (P : Platform) (e : Elem) : Set Nat :=
  Set.Ico (e.addr + P.sizeT) (e.addr + e.extent P)

theorem hashVal_congr (same : Set.EqOn m m' (Set.Ico (a + P.sizeT) (a + 2 * P.sizeT))) :
    hashVal P m a = hashVal P m' a := by
  have := P.sizeT_ge
  rw [hashVal, hashVal, Mem.load_congr fun x inside => same ⟨inside.1, by have := inside.2; omega⟩]

theorem keySize_congr (same : Set.EqOn m m' (Set.Ico (a + 2 * P.sizeT) (a + 3 * P.sizeT))) :
    keySize P m a = keySize P m' a :=
  Platform.get_congr fun x inside => same ⟨inside.1, by have := inside.2; omega⟩

/-- The bytes of an element between its `next` and the end of its key. -/
def Elem.named (P : Platform) (e : Elem) : Set Nat :=
  Set.Ico (e.addr + P.sizeT) (e.addr + headerSize P + e.key.length)

theorem Stored.named (stored : Stored P m value e) (same : Set.EqOn m m' (e.named P)) :
    Stored P m' value e := by
  have header := sizeofHeader_le (P := P)
  rw [sizeofHeader] at header
  have inside : ∀ x, e.addr + P.sizeT ≤ x → x < e.addr + headerSize P + e.key.length →
      m x = m' x := fun x low high => same ⟨low, high⟩
  constructor
  · rw [← stored.hash]
    exact (hashVal_congr fun x within => inside x within.1 (by have := within.2; omega)).symm
  · rw [← stored.size]
    exact (keySize_congr fun x within =>
      inside x (by have := within.1; omega) (by have := within.2; omega)).symm
  · conv_rhs => rw [← stored.key]
    exact (Mem.read_congr fun x within => inside x (by have := within.1; omega) within.2).symm

theorem Elem.named_subset (fits : e.Fits P) : e.named P ⊆ e.body P := by
  have := fits.key_le
  refine Set.Ico_subset_Ico_right ?_
  rw [Elem.extent]
  omega

theorem Stored.congr (stored : Stored P m value e) (fits : e.Fits P)
    (same : Set.EqOn m m' (e.body P)) : Stored P m' value e :=
  stored.named (same.mono (Elem.named_subset fits))

/-- The bucket array at `base` and the elements lie in blocks of their own. -/
structure Housed (P : Platform) (L : Blocks ι) (bo eo : ι) (base n : Nat) (es : List Elem) :
    Prop where
  array : n ≠ 0 → ∃ size, L base = some ⟨bo, size⟩ ∧ n * P.sizeT ≤ size
  held : ∀ e ∈ es, ∃ size, L e.addr = some ⟨eo, size⟩ ∧ e.extent P ≤ size
  apart : ∀ e ∈ es, e.addr ≠ base
  nodup : (es.map Elem.addr).Nodup
  fits : ∀ e ∈ es, e.Fits P

/-- The words that link the chains: the buckets, and the elements' `next`. -/
def IsCell (P : Platform) (base n : Nat) (es : List Elem) (c : Nat) : Prop :=
  (∃ i < n, c = bucket P base i) ∨ ∃ e ∈ es, c = e.addr

section Housed
variable {base n i : Nat} {es es' : List Elem} {e' : Elem} {c d : Nat}

theorem Housed.perm (housed : Housed P L bo eo base n es) (same : es'.Perm es) :
    Housed P L bo eo base n es' where
  array := housed.array
  held e member := housed.held e (same.mem_iff.mp member)
  apart e member := housed.apart e (same.mem_iff.mp member)
  nodup := (same.map Elem.addr).nodup_iff.mpr housed.nodup
  fits e member := housed.fits e (same.mem_iff.mp member)

theorem bucket_within (inside : i < n) : i * P.sizeT + P.sizeT ≤ n * P.sizeT := by
  have := Nat.mul_le_mul_right P.sizeT (Nat.succ_le_of_lt inside)
  rwa [Nat.succ_mul] at this

theorem sizeT_le_extent : P.sizeT ≤ e.extent P := by
  have header := sizeofHeader_le (P := P)
  rw [sizeofHeader] at header
  rw [Elem.extent]
  omega

theorem Housed.array_apart (housed : Housed P L bo eo base n es) (separate : L.Separate)
    (nonempty : n ≠ 0) (member : e ∈ es) :
    base + n * P.sizeT ≤ e.addr ∨ e.addr + e.extent P ≤ base := by
  obtain ⟨size, array, room⟩ := housed.array nonempty
  obtain ⟨size', held, room'⟩ := housed.held e member
  have := separate _ _ _ _ array held (Ne.symm (housed.apart e member))
  dsimp only at this
  omega

theorem Housed.elem_apart (housed : Housed P L bo eo base n es) (separate : L.Separate)
    (member : e ∈ es) (member' : e' ∈ es) (different : e.addr ≠ e'.addr) :
    e.addr + e.extent P ≤ e'.addr ∨ e'.addr + e'.extent P ≤ e.addr := by
  obtain ⟨size, held, room⟩ := housed.held e member
  obtain ⟨size', held', room'⟩ := housed.held e' member'
  have := separate _ _ _ _ held held' different
  dsimp only at this
  omega

theorem bucket_bounds (P : Platform) (base : Nat) (inside : i < n) :
    base ≤ bucket P base i ∧ bucket P base i + P.sizeT ≤ base + n * P.sizeT := by
  have := bucket_within (P := P) inside
  rw [bucket]
  omega

theorem Housed.cell_bytes (housed : Housed P L bo eo base n es) (cell : IsCell P base n es c)
    (inside : c ≤ x ∧ x < c + P.sizeT) : x ∈ L.bytes := by
  rcases cell with ⟨i, low, rfl⟩ | ⟨e, member, rfl⟩
  · obtain ⟨size, array, room⟩ := housed.array (by omega)
    have := bucket_bounds P base low
    exact Blocks.mem_bytes array (by dsimp only; omega)
  · obtain ⟨size, held, room⟩ := housed.held e member
    have := sizeT_le_extent (P := P) (e := e)
    exact Blocks.mem_bytes held (by dsimp only; omega)

theorem Housed.body_bytes (housed : Housed P L bo eo base n es) (member : e ∈ es) :
    e.body P ⊆ L.bytes := by
  intro x inside
  obtain ⟨size, held, room⟩ := housed.held e member
  have low := inside.1
  have high := inside.2
  exact Blocks.mem_bytes held (by dsimp only; omega)

theorem Housed.bucket_ne (housed : Housed P L bo eo base n es) (separate : L.Separate)
    (inside : i < n) (member : e ∈ es) : bucket P base i ≠ e.addr := by
  have := bucket_bounds P base inside
  have := housed.array_apart separate (by omega) member
  have := sizeT_le_extent (P := P) (e := e)
  have := P.sizeT_ge
  omega

theorem bucket_inj : bucket P base i = bucket P base j ↔ i = j := by
  have positive : 0 < P.sizeT := by
    have := P.sizeT_ge
    omega
  rw [bucket, bucket, Nat.add_left_cancel_iff, Nat.mul_left_inj (Nat.ne_of_gt positive)]

theorem Housed.cell_apart (housed : Housed P L bo eo base n es) (separate : L.Separate)
    (cell : IsCell P base n es c) (cell' : IsCell P base n es d) (different : c ≠ d) :
    c + P.sizeT ≤ d ∨ d + P.sizeT ≤ c := by
  rcases cell with ⟨i, low, rfl⟩ | ⟨e, member, rfl⟩ <;>
    rcases cell' with ⟨j, low', rfl⟩ | ⟨e', member', rfl⟩
  · simp only [bucket] at different ⊢
    rcases Nat.lt_trichotomy i j with less | rfl | more
    · have := bucket_within (P := P) less
      omega
    · exact absurd rfl different
    · have := bucket_within (P := P) more
      omega
  · have := bucket_bounds P base low
    have := housed.array_apart separate (by omega) member'
    have := sizeT_le_extent (P := P) (e := e')
    omega
  · have := bucket_bounds P base low'
    have := housed.array_apart separate (by omega) member
    have := sizeT_le_extent (P := P) (e := e)
    omega
  · have := housed.elem_apart separate member member' different
    have := sizeT_le_extent (P := P) (e := e)
    have := sizeT_le_extent (P := P) (e := e')
    omega

/-- A cell shares no byte with the body of an element. -/
theorem Housed.cell_body (housed : Housed P L bo eo base n es) (separate : L.Separate)
    (cell : IsCell P base n es c) (member : e ∈ es) (inside : x ∈ e.body P) :
    x < c ∨ c + P.sizeT ≤ x := by
  have low := inside.1
  have high := inside.2
  rcases cell with ⟨i, below, rfl⟩ | ⟨e', member', rfl⟩
  · have := bucket_bounds P base below
    have := housed.array_apart separate (by omega) member
    omega
  · by_cases same : e'.addr = e.addr
    · omega
    · have := housed.elem_apart separate member' member same
      have := sizeT_le_extent (P := P) (e := e')
      omega

theorem Housed.get_put (housed : Housed P L bo eo base n es) (separate : L.Separate)
    (cell : IsCell P base n es c) (cell' : IsCell P base n es d) (small : a ≤ P.sizeMax) :
    P.get (P.put m c a) d = if d = c then a else P.get m d := by
  by_cases same : d = c
  · subst same
    rw [if_pos rfl, Platform.get_put small]
  · have := housed.cell_apart separate cell' cell same
    rw [if_neg same, Platform.get_put_out this]

/-- Setting one cell changes no stored element. -/
theorem Housed.body_put (housed : Housed P L bo eo base n es) (separate : L.Separate)
    (cell : IsCell P base n es c) (member : e ∈ es) :
    Set.EqOn m (P.put m c a) (e.body P) := by
  intro x inside
  have := housed.cell_body separate cell member inside
  exact (Platform.put_out (by omega)).symm

end Housed
end Ratlib.Rmap
