import Ratlib.Order.Model
import Mathlib.Data.List.Basic
import Mathlib.Tactic.IntervalCases

/-! rat_rorder.c stores its formats whatever the host. The flips mirror a format, so the
conversion that the host needs and the order in which it stores integers cancel. A record of
fields, each written where the last one ended, is read back by any other host. -/
namespace Ratlib.Order

open Format

variable {n : Nat} {m : Mem} {F : ByteOrder → Format (8 * n)} {flip : BitVec (8 * n) → BitVec (8 * n)}
  {func : ByteOrder → BitVec (8 * n) → BitVec (8 * n)}

def Flips (n : Nat) (flip : BitVec (8 * n) → BitVec (8 * n)) : Prop :=
  ∀ value, (littleEndian n).bytes (flip value) = ((littleEndian n).bytes value).reverse

/-- A value whose bytes are those of another in the opposite order. -/
theorem bytes_mirror {value flipped : BitVec (8 * n)}
    (moved : ∀ i < n, ∀ j < 8, flipped.getLsbD (8 * i + j) = value.getLsbD (8 * (n - 1 - i) + j)) :
    (littleEndian n).bytes flipped = ((littleEndian n).bytes value).reverse := by
  have digit : ∀ (v : BitVec (8 * n)) i j, (v.toNat / 256 ^ i).testBit j = v.getLsbD (8 * i + j) := by
    intro v i j
    rw [← pow_bits, Nat.testBit_div_two_pow, BitVec.testBit_toNat, Nat.add_comm]
  refine List.ext_getElem (by simp [littleEndian, length_digits]) fun i inside _ => ?_
  have inside : i < n := by simpa [littleEndian, length_digits] using inside
  simp only [littleEndian, digits, List.getElem_reverse, List.getElem_map, List.getElem_range,
    List.length_map, List.length_range]
  apply UInt8.toNat_inj.mp
  rw [UInt8.toNat_ofNat', UInt8.toNat_ofNat']
  apply Nat.eq_of_testBit_eq
  intro j
  rw [Nat.testBit_mod_two_pow, Nat.testBit_mod_two_pow, digit, digit]
  by_cases low : j < 8
  · rw [moved i inside j low]
  · simp [low]

theorem rorderFlip16_flips : Flips 2 rorderFlip16 := by
  intro value
  refine bytes_mirror fun i inside j low => ?_
  simp only [rorderFlip16, BitVec.getLsbD_or, BitVec.getLsbD_ushiftRight, BitVec.getLsbD_shiftLeft]
  interval_cases i <;> interval_cases j <;> simp

theorem rorderFlip32_flips : Flips 4 rorderFlip32 := by
  intro value
  refine bytes_mirror fun i inside j low => ?_
  simp only [rorderFlip32, BitVec.getLsbD_or, BitVec.getLsbD_and, BitVec.getLsbD_ushiftRight,
    BitVec.getLsbD_shiftLeft]
  interval_cases i <;> interval_cases j <;> simp

theorem rorderFlip64_flips : Flips 8 rorderFlip64 := by
  intro value
  refine bytes_mirror fun i inside j low => ?_
  simp only [rorderFlip64, BitVec.getLsbD_or, BitVec.getLsbD_and, BitVec.getLsbD_ushiftRight,
    BitVec.getLsbD_shiftLeft]
  interval_cases i <;> interval_cases j <;> simp

theorem Flips.write (flips : Flips n flip) (value : BitVec (8 * n)) :
    (bigEndian n).bytes (flip value) = (littleEndian n).bytes value := by
  rw [bigEndian, mirror]
  dsimp only
  rw [flips, List.reverse_reverse]

theorem Flips.read (flips : Flips n flip) {bs : List UInt8} (length : bs.length = n) :
    flip ((littleEndian n).value bs) = (bigEndian n).value bs := by
  have whole : 8 * n / 8 = n := Nat.mul_div_cancel_left n (by decide)
  apply (littleEndian n).bytes_injective
  rw [flips, (littleEndian n).bytes_value bs (by omega), bigEndian, mirror]
  dsimp only
  rw [(littleEndian n).bytes_value _ (by rw [List.length_reverse]; omega)]

theorem Flips.read_back (flips : Flips n flip) {bs : List UInt8} (length : bs.length = n) :
    flip ((bigEndian n).value bs) = (littleEndian n).value bs := by
  rw [bigEndian, mirror]
  dsimp only
  rw [flips.read (by rwa [List.length_reverse]), bigEndian, mirror]
  dsimp only
  rw [List.reverse_reverse]

/-- A conversion between the order of a host and that of the format it stores. -/
structure Converts (F : ByteOrder → Format (8 * n)) (func : ByteOrder → BitVec (8 * n) → BitVec (8 * n)) :
    Prop where
  write : ∀ host value, (ByteOrder.host n host).bytes (func host value) = (F host).bytes value
  read : ∀ host bs, bs.length = n → func host ((ByteOrder.host n host).value bs) = (F host).value bs

theorem Flips.le_converts (flips : Flips n flip) (little : ∀ value, func .littleEndian value = value)
    (big : ∀ value, func .bigEndian value = flip value) : Converts (fun _ => littleEndian n) func where
  write host value := by
    cases host with
    | littleEndian => rw [little, ByteOrder.host]
    | bigEndian => rw [big, ByteOrder.host, flips.write]
  read host bs length := by
    cases host with
    | littleEndian => rw [little, ByteOrder.host]
    | bigEndian => rw [big, ByteOrder.host, flips.read_back length]

theorem Flips.be_converts (flips : Flips n flip) (little : ∀ value, func .littleEndian value = flip value)
    (big : ∀ value, func .bigEndian value = value) : Converts (fun _ => bigEndian n) func where
  write host value := by
    cases host with
    | littleEndian =>
      rw [little, ByteOrder.host, flips]
      rfl
    | bigEndian => rw [big, ByteOrder.host]
  read host bs length := by
    cases host with
    | littleEndian => rw [little, ByteOrder.host, flips.read length]
    | bigEndian => rw [big, ByteOrder.host]

/-- The flips alone store the host's other format. -/
theorem Flips.converts (flips : Flips n flip) :
    Converts (fun host => (host.host n).mirror) fun _ => flip where
  write host value := by
    cases host with
    | littleEndian => exact flips value
    | bigEndian =>
      rw [ByteOrder.host, flips.write, bigEndian, mirror_mirror]
  read host bs length := by
    cases host with
    | littleEndian => exact flips.read length
    | bigEndian =>
      rw [ByteOrder.host, flips.read_back length, bigEndian, mirror_mirror]

theorem Converts.funcdefWrite (converts : Converts F func) (host : ByteOrder) (m : Mem) (dst : Nat)
    (value : BitVec (8 * n)) :
    Order.funcdefWrite n func host m dst value = (m.write dst ((F host).bytes value), n) := by
  rw [Order.funcdefWrite, converts.write]

theorem Converts.funcdefRead (converts : Converts F func) (host : ByteOrder) (m : Mem) (src : Nat) :
    Order.funcdefRead n func host m src = ((F host).value (m.read src n), n) := by
  rw [Order.funcdefRead, converts.read _ _ (Mem.read_length ..)]

inductive Layout where
  | le16 | be16 | flip16
  | le32 | be32 | flip32
  | le64 | be64 | flip64

namespace Layout

def size : Layout → Nat
  | le16 | be16 | flip16 => 2
  | le32 | be32 | flip32 => 4
  | le64 | be64 | flip64 => 8

/-- Only the flips depend on the host. -/
def portable : Layout → Bool
  | flip16 | flip32 | flip64 => false
  | _ => true

def write (host : ByteOrder) (m : Mem) (dst : Nat) : (l : Layout) → BitVec (8 * l.size) → Mem × Nat
  | le16 => rorderLe16Write host m dst
  | be16 => rorderBe16Write host m dst
  | flip16 => rorderFlip16Write host m dst
  | le32 => rorderLe32Write host m dst
  | be32 => rorderBe32Write host m dst
  | flip32 => rorderFlip32Write host m dst
  | le64 => rorderLe64Write host m dst
  | be64 => rorderBe64Write host m dst
  | flip64 => rorderFlip64Write host m dst

def read (host : ByteOrder) (m : Mem) (src : Nat) : (l : Layout) → BitVec (8 * l.size) × Nat
  | le16 => rorderLe16Read host m src
  | be16 => rorderBe16Read host m src
  | flip16 => rorderFlip16Read host m src
  | le32 => rorderLe32Read host m src
  | be32 => rorderBe32Read host m src
  | flip32 => rorderFlip32Read host m src
  | le64 => rorderLe64Read host m src
  | be64 => rorderBe64Read host m src
  | flip64 => rorderFlip64Read host m src

def format (host : ByteOrder) : (l : Layout) → Format (8 * l.size)
  | le16 => littleEndian 2
  | be16 => bigEndian 2
  | flip16 => (host.host 2).mirror
  | le32 => littleEndian 4
  | be32 => bigEndian 4
  | flip32 => (host.host 4).mirror
  | le64 => littleEndian 8
  | be64 => bigEndian 8
  | flip64 => (host.host 8).mirror

theorem write_eq (host : ByteOrder) (m : Mem) (dst : Nat) (l : Layout) (value : BitVec (8 * l.size)) :
    l.write host m dst value = (m.write dst ((l.format host).bytes value), l.size) := by
  cases l with
  | le16 => exact (rorderFlip16_flips.le_converts (fun _ => rfl) fun _ => rfl).funcdefWrite ..
  | be16 => exact (rorderFlip16_flips.be_converts (fun _ => rfl) fun _ => rfl).funcdefWrite ..
  | flip16 => exact rorderFlip16_flips.converts.funcdefWrite ..
  | le32 => exact (rorderFlip32_flips.le_converts (fun _ => rfl) fun _ => rfl).funcdefWrite ..
  | be32 => exact (rorderFlip32_flips.be_converts (fun _ => rfl) fun _ => rfl).funcdefWrite ..
  | flip32 => exact rorderFlip32_flips.converts.funcdefWrite ..
  | le64 => exact (rorderFlip64_flips.le_converts (fun _ => rfl) fun _ => rfl).funcdefWrite ..
  | be64 => exact (rorderFlip64_flips.be_converts (fun _ => rfl) fun _ => rfl).funcdefWrite ..
  | flip64 => exact rorderFlip64_flips.converts.funcdefWrite ..

theorem read_eq (host : ByteOrder) (m : Mem) (src : Nat) (l : Layout) :
    l.read host m src = ((l.format host).value (m.read src l.size), l.size) := by
  cases l with
  | le16 => exact (rorderFlip16_flips.le_converts (fun _ => rfl) fun _ => rfl).funcdefRead ..
  | be16 => exact (rorderFlip16_flips.be_converts (fun _ => rfl) fun _ => rfl).funcdefRead ..
  | flip16 => exact rorderFlip16_flips.converts.funcdefRead ..
  | le32 => exact (rorderFlip32_flips.le_converts (fun _ => rfl) fun _ => rfl).funcdefRead ..
  | be32 => exact (rorderFlip32_flips.be_converts (fun _ => rfl) fun _ => rfl).funcdefRead ..
  | flip32 => exact rorderFlip32_flips.converts.funcdefRead ..
  | le64 => exact (rorderFlip64_flips.le_converts (fun _ => rfl) fun _ => rfl).funcdefRead ..
  | be64 => exact (rorderFlip64_flips.be_converts (fun _ => rfl) fun _ => rfl).funcdefRead ..
  | flip64 => exact rorderFlip64_flips.converts.funcdefRead ..

theorem format_portable {l : Layout} (portable : l.portable = true) (host host' : ByteOrder) :
    l.format host = l.format host' := by
  cases l <;> first | rfl | cases portable

end Layout

abbrev Field := (l : Layout) × BitVec (8 * l.size)

def Field.bytes (host : ByteOrder) (field : Field) : List UInt8 := (field.1.format host).bytes field.2

/-- Each field is written where the last one ended, by the sizes that the writers return. -/
def writeRecord (host : ByteOrder) (m : Mem) (dst : Nat) : List Field → Mem × Nat
  | [] => (m, 0)
  | field :: fields =>
    let (m, size) := field.1.write host m dst field.2
    let (m, rest) := writeRecord host m (dst + size) fields
    (m, size + rest)

def readRecord (host : ByteOrder) (m : Mem) (src : Nat) : List Layout → List Field × Nat
  | [] => ([], 0)
  | l :: layouts =>
    let (value, size) := l.read host m src
    let (fields, rest) := readRecord host m (src + size) layouts
    (⟨l, value⟩ :: fields, size + rest)

theorem Field.length_bytes (host : ByteOrder) (field : Field) : (field.bytes host).length = field.1.size := by
  rw [Field.bytes, (field.1.format host).length_bytes, Nat.mul_div_cancel_left _ (by decide)]

theorem writeRecord_eq (host : ByteOrder) (m : Mem) (dst : Nat) (fields : List Field) :
    writeRecord host m dst fields =
      (m.write dst (fields.flatMap (Field.bytes host)), (fields.flatMap (Field.bytes host)).length) := by
  induction fields generalizing m dst with
  | nil => rw [writeRecord, List.flatMap_nil, Mem.write_nil, List.length_nil]
  | cons field fields ih =>
    have size := Field.length_bytes host field
    rw [writeRecord, Layout.write_eq]
    dsimp only
    rw [ih, List.flatMap_cons, List.length_append, size, ← Mem.write_append, size]
    rfl

theorem readRecord_eq {host : ByteOrder} {fields : List Field} {src : Nat}
    (stored : m.read src (fields.flatMap (Field.bytes host)).length = fields.flatMap (Field.bytes host)) :
    readRecord host m src (fields.map Sigma.fst) = (fields, (fields.flatMap (Field.bytes host)).length) := by
  induction fields generalizing src with
  | nil => rfl
  | cons field fields ih =>
    have size := Field.length_bytes host field
    rw [List.flatMap_cons, List.length_append, Mem.read_add, size] at stored
    obtain ⟨first, rest⟩ := List.append_inj stored (by rw [Mem.read_length, size])
    have read : field.1.read host m src = (field.2, field.1.size) := by
      rw [Layout.read_eq, first, Field.bytes, (field.1.format host).value_bytes]
    rw [List.map_cons, readRecord, read]
    dsimp only
    rw [ih rest, List.flatMap_cons, List.length_append, size]

/-- The bytes of a record without flips are those of any host. -/
theorem bytes_portable {host host' : ByteOrder} {fields : List Field}
    (portable : host' = host ∨ ∀ field ∈ fields, field.1.portable = true) :
    fields.flatMap (Field.bytes host') = fields.flatMap (Field.bytes host) := by
  rcases portable with rfl | portable
  · rfl
  · refine List.flatMap_congr fun field member => ?_
    rw [Field.bytes, Layout.format_portable (portable field member) host' host, Field.bytes]

/-- A record is stored as the bytes of its formats and nothing else is written. What any
host finds at these bytes are the fields, where they do not depend on the host. -/
theorem rorder_records (host host' : ByteOrder) {fields : List Field}
    (portable : host' = host ∨ ∀ field ∈ fields, field.1.portable = true) (m : Mem) (dst : Nat) :
    let bytes := fields.flatMap (Field.bytes host)
    let written := writeRecord host m dst fields
    written = (m.write dst bytes, bytes.length) ∧
      bytes = fields.flatMap (Field.bytes host') ∧
      ∀ m' src, m'.read src written.2 = written.1.read dst written.2 →
        readRecord host' m' src (fields.map Sigma.fst) = (fields, written.2) := by
  intro bytes written
  have same : written = (m.write dst bytes, bytes.length) := writeRecord_eq host m dst fields
  refine ⟨same, (bytes_portable portable).symm, fun m' src copied => ?_⟩
  rw [same] at copied ⊢
  rw [Mem.read_write] at copied
  have read : m'.read src (fields.flatMap (Field.bytes host')).length = fields.flatMap (Field.bytes host') →
      readRecord host' m' src (fields.map Sigma.fst) =
        (fields, (fields.flatMap (Field.bytes host')).length) := readRecord_eq
  rw [bytes_portable portable] at read
  exact read copied

/-- A record of three widths, written by a little-endian host and read by a big-endian one. -/
theorem rorder_records_mixed :
    let fields : List Field := [⟨.le16, 0x1234#16⟩, ⟨.be32, 0x12345678#32⟩, ⟨.le64, 0x0123456789abcdef#64⟩]
    let written := writeRecord .littleEndian (fun _ => 0) 4096 fields
    written.2 = 14 ∧ readRecord .bigEndian written.1 4096 [.le16, .be32, .le64] = (fields, 14) := by
  intro fields written
  have portable : ∀ field ∈ fields, field.1.portable = true := by decide
  have records := rorder_records .littleEndian .bigEndian (.inr portable) (fun _ => 0) 4096
  have size : written.2 = 14 := rfl
  exact ⟨size, size ▸ records.2.2 written.1 4096 rfl⟩

end Ratlib.Order
