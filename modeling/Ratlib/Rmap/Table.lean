import Ratlib.Rmap.Elements
import Ratlib.Alloc.Relocation

/-! The chains of a hash map: what links them in memory, where elements are filed, and
what the lookup loop finds. -/
namespace Ratlib.Rmap

/-- The callbacks agree: `equals` is an equivalence, and equal keys hash alike. -/
structure Compatible (f : List UInt8 → UInt32) (equals : List UInt8 → List UInt8 → Bool) : Prop where
  refl : ∀ a, equals a a
  symm : ∀ a b, equals a b → equals b a
  trans : ∀ a b c, equals a b → equals b c → equals a c
  hash : ∀ a b, equals a b → f a = f b

structure Table (P : Platform) (f : List UInt8 → UInt32) (base n : Nat) (chains : Nat → List Elem)
    (m : Mem) : Prop where
  linked : ∀ i < n, Chain (P.get m) 0 (bucket P base i) ((chains i).map Elem.addr)
  stored : ∀ e ∈ members n chains, Stored P m (f e.key) e

/-- Elements are in the chains of their hash values, one for a key if the callbacks agree. -/
structure Filed (P : Platform) (f : List UInt8 → UInt32) (equals : List UInt8 → List UInt8 → Bool)
    (n : Nat) (chains : Nat → List Elem) : Prop where
  placed : ∀ i < n, ∀ e ∈ chains i, bucketIndex P (f e.key) n = i
  distinct : Compatible f equals → (members n chains).Pairwise fun e e' => ¬equals e.key e'.key
  size : n = 0 ∨ ∃ k, 2 ≤ k ∧ n = 2 ^ k

def Owns {ι : Type v} (L : Blocks ι) (bo eo : ι) (base n : Nat) (es : List Elem) : Prop :=
  ∀ a block, L a = some block → block.owner = bo ∨ block.owner = eo →
    n ≠ 0 ∧ a = base ∨ ∃ e ∈ es, a = e.addr

/-- A map with these chains in blocks its allocators handed out and have not taken back. -/
structure Holds {σ : Type u} {ι : Type v} (P : Platform) (ok : World σ → Blocks ι → Prop) (bo eo : ι)
    (f : List UInt8 → UInt32) (equals : List UInt8 → List UInt8 → Bool) (p : RMap) (w : World σ)
    (L : Blocks ι) (chains : Nat → List Elem) : Prop where
  hashes : getHashVal p = f
  compares : p.equals = equals
  ok : ok w L
  housed : Housed P L bo eo p.buckets p.bucketCount (members p.bucketCount chains)
  owns : Owns L bo eo p.buckets p.bucketCount (members p.bucketCount chains)
  table : Table P f p.buckets p.bucketCount chains w.mem
  filed : Filed P f equals p.bucketCount chains
  count : p.count = (members p.bucketCount chains).length
  load : p.count ≤ p.bucketCount / 2 + p.bucketCount / 4

variable {P : Platform} {σ : Type u} {ι : Type v} {A : Ralc σ} {ok : World σ → Blocks ι → Prop}
  {bo eo owner : ι} {f : List UInt8 → UInt32} {equals : List UInt8 → List UInt8 → Bool}
  {p p' : RMap} {w w' : World σ} {L L' : Blocks ι} {chains chains' : Nat → List Elem}
  {m m' : Mem} {key : List UInt8} {base n i : Nat} {e : Elem}

theorem chain_cell (inside : i < n) (member : c ∈ bucket P base i :: (chains i).map Elem.addr) :
    IsCell P base n (members n chains) c := by
  rcases List.mem_cons.mp member with rfl | member
  · exact Or.inl ⟨i, inside, rfl⟩
  · obtain ⟨e, here, rfl⟩ := List.mem_map.mp member
    exact Or.inr ⟨e, mem_members.mpr ⟨i, inside, here⟩, rfl⟩

theorem Table.congr (table : Table P f base n chains m)
    (housed : Housed P L bo eo base n (members n chains)) (same : Set.EqOn m m' L.bytes) :
    Table P f base n chains m' where
  linked := by
    intro i inside
    refine (table.linked i inside).congr fun c member => ?_
    have cell := chain_cell inside member
    exact (Platform.get_congr fun x within => same (housed.cell_bytes cell within)).symm
  stored := by
    intro e member
    exact (table.stored e member).congr (housed.fits e member) fun x within =>
      same (housed.body_bytes member within)

/-- A call that failed, or one that wrote elsewhere. -/
theorem Holds.kept (holds : Holds P ok bo eo f equals p w L chains) (after : ok w' L)
    (same : Set.EqOn w.mem w'.mem L.bytes) : Holds P ok bo eo f equals p w' L chains :=
  { holds with ok := after, table := holds.table.congr holds.housed same }

section Index

theorem Holds.count_le (serves : Serves P A owner ok limit)
    (holds : Holds P ok bo eo f equals p w L chains) : p.bucketCount ≤ P.sizeMax := by
  by_cases none : p.bucketCount = 0
  · omega
  · obtain ⟨size, array, room⟩ := holds.housed.array none
    have bounds := serves.bounds holds.ok array
    have := Nat.le_mul_of_pos_right p.bucketCount (show 0 < P.sizeT from by have := P.sizeT_ge; omega)
    dsimp only at bounds
    omega

theorem bucketIndex_eq (small : 2 ^ k ≤ P.sizeMax) (value : UInt32) :
    bucketIndex P value (2 ^ k) = value.toNat % 2 ^ k := by
  have positive := Nat.two_pow_pos k
  rw [bucketIndex, Platform.sub_of_le positive small, Nat.and_two_pow_sub_one_eq_mod]

theorem bucketIndex_lt (small : n ≤ P.sizeMax) (size : n = 0 ∨ ∃ k, 2 ≤ k ∧ n = 2 ^ k)
    (nonempty : n ≠ 0) (value : UInt32) : bucketIndex P value n < n := by
  obtain ⟨k, -, rfl⟩ := size.resolve_left nonempty
  rw [bucketIndex_eq small]
  exact Nat.mod_lt _ (Nat.two_pow_pos k)

end Index

theorem findFrom_cases (same : p.equals = equals) {es : List Elem} {link fuel : Nat}
    (chain : Chain (P.get m) 0 link (es.map Elem.addr)) (nonnull : ∀ e ∈ es, e.addr ≠ 0)
    (stored : ∀ e ∈ es, Stored P m (f e.key) e) (enough : es.length < fuel) :
    (∀ e ∈ es, ¬(f key = f e.key ∧ equals key e.key)) ∧
        findFrom P p m (f key) key fuel link = some none ∨
      ∃ xs e ys, es = xs ++ e :: ys ∧ f key = f e.key ∧ equals key e.key ∧
        findFrom P p m (f key) key fuel link = some (some (exit link (xs.map Elem.addr))) := by
  induction es generalizing link fuel with
  | nil =>
    obtain ⟨fuel, rfl⟩ := Nat.exists_eq_succ_of_ne_zero (Nat.ne_zero_of_lt enough)
    have null : P.get m link = 0 := chain
    exact Or.inl ⟨by simp, by rw [findFrom, null]; rfl⟩
  | cons e es ih =>
    obtain ⟨fuel, rfl⟩ := Nat.exists_eq_succ_of_ne_zero (Nat.ne_zero_of_lt enough)
    obtain ⟨first, rest⟩ := chain
    have first : P.get m link = e.addr := first
    have here := stored e List.mem_cons_self
    have test : found P p m (f key) key e.addr ↔ f key = f e.key ∧ equals key e.key := by
      rw [found, here.hash, here.storedKey, same, Bool.and_eq_true, beq_iff_eq, eq_comm (a := f e.key)]
    rw [findFrom, first]
    rw [if_neg (nonnull e List.mem_cons_self)]
    by_cases equal : f key = f e.key ∧ equals key e.key
    · rw [if_pos (test.mpr equal)]
      exact Or.inr ⟨[], e, es, rfl, equal.1, equal.2, rfl⟩
    · rw [if_neg (mt test.mp equal)]
      have rest : Chain (P.get m) 0 e.addr (es.map Elem.addr) := rest
      have nonnull := fun x member => nonnull x (List.mem_cons_of_mem e member)
      have stored := fun x member => stored x (List.mem_cons_of_mem e member)
      rcases ih rest nonnull stored (Nat.lt_of_succ_lt_succ enough) with
        ⟨absent, result⟩ | ⟨xs, x, ys, rfl, hash, present, result⟩
      · refine Or.inl ⟨fun x member => ?_, result⟩
        rcases List.mem_cons.mp member with rfl | member
        · exact equal
        · exact absent x member
      · refine Or.inr ⟨e :: xs, x, ys, rfl, hash, present, ?_⟩
        rw [result]
        cases xs <;> rfl

theorem Holds.nonnull (serves : Serves P A owner ok limit)
    (holds : Holds P ok bo eo f equals p w L chains) (member : e ∈ members p.bucketCount chains) :
    e.addr ≠ 0 ∧ e.addr + e.extent P ≤ P.sizeMax := by
  obtain ⟨size, held, room⟩ := holds.housed.held e member
  have := serves.bounds holds.ok held
  dsimp only at this
  omega

theorem length_bucket_le (inside : i < n) (chains : Nat → List Elem) :
    (chains i).length ≤ (members n chains).length := by
  obtain ⟨before, after, split⟩ := members_split inside chains
  have whole := split (chains i)
  rw [Function.update_eq_self] at whole
  rw [whole]
  simp only [List.length_append]
  omega

/-- What the lookup finds: nothing, and then no element has an equal key if the callbacks
agree; or the cell before an element with an equal key. -/
theorem find_cases (serves : Serves P A owner ok limit)
    (holds : Holds P ok bo eo f equals p w L chains) (key : List UInt8) :
    (Compatible f equals → ∀ e ∈ members p.bucketCount chains, ¬equals key e.key) ∧
        find P p w.mem key = some none ∨
      ∃ i xs e ys, i < p.bucketCount ∧ chains i = xs ++ e :: ys ∧ f key = f e.key ∧
        equals key e.key ∧
          find P p w.mem key = some (some (exit (bucket P p.buckets i) (xs.map Elem.addr))) := by
  rw [find, holds.hashes]
  by_cases nonempty : p.bucketCount ≠ 0
  · have small := holds.count_le serves
    have inside := bucketIndex_lt small holds.filed.size nonempty (f key)
    have here : ∀ e ∈ chains (bucketIndex P (f key) p.bucketCount),
        e ∈ members p.bucketCount chains := fun e member => mem_members.mpr ⟨_, inside, member⟩
    have enough := length_bucket_le inside chains
    rw [← holds.count] at enough
    rw [if_pos nonempty]
    rcases findFrom_cases holds.compares
      (holds.table.linked _ inside) (fun e member => (holds.nonnull serves (here e member)).1)
      (fun e member => holds.table.stored e (here e member)) (Nat.lt_succ_of_le enough) with
      ⟨absent, result⟩ | ⟨xs, e, ys, split, hash, present, result⟩
    · refine Or.inl ⟨fun compatible e member equal => ?_, result⟩
      have hash := compatible.hash key e.key equal
      obtain ⟨j, low, member⟩ := mem_members.mp member
      have placed := holds.filed.placed j low e member
      rw [← hash] at placed
      exact absent e (placed ▸ member) ⟨hash, equal⟩
    · exact Or.inr ⟨_, xs, e, ys, inside, split, hash, present, result⟩
  · have none : p.bucketCount = 0 := not_not.mp nonempty
    rw [if_neg nonempty]
    refine Or.inl ⟨fun _ e member => ?_, rfl⟩
    obtain ⟨j, low, -⟩ := mem_members.mp member
    omega

/-- The cell before an element points to it. -/
theorem Holds.before (holds : Holds P ok bo eo f equals p w L chains) (inside : i < p.bucketCount)
    (split : chains i = xs ++ e :: ys) :
    P.get w.mem (exit (bucket P p.buckets i) (xs.map Elem.addr)) = e.addr ∧
      P.get w.mem e.addr = entry 0 (ys.map Elem.addr) := by
  have chain := holds.table.linked i inside
  rw [split, List.map_append] at chain
  have rest : Chain (P.get w.mem) 0 _ (e.addr :: ys.map Elem.addr) := chain.at_exit
  refine ⟨rest.entry, ?_⟩
  exact Path.entry rest.2

end Ratlib.Rmap
