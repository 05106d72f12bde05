import Ratlib.Rmap.Edits

/-! What the functions of rmap do to the elements of a map, over any two allocators that
meet the contract and whichever of their calls fail. -/
namespace Ratlib.Rmap

variable {P : Platform} {σ : Type u} {ι : Type v} {A B E : Ralc σ} {ok : World σ → Blocks ι → Prop}
  {bo eo owner : ι} {f : List UInt8 → UInt32} {equals : List UInt8 → List UInt8 → Bool}
  {p p' : RMap} {w w' w₁ : World σ} {L L₀ L' : Blocks ι} {chains : Nat → List Elem} {m m' : Mem}
  {base n i : Nat} {es rest xs ys : List Elem} {e : Elem} {key : List UInt8} {value : UInt32}

section Fill

/-- The first two members of a new header. -/
theorem setHashVal_put (value : UInt32) (small : after ≤ P.sizeMax) :
    let m' := setHashVal P (P.put m a after) a value
    hashVal P m' a = value ∧ P.get m' a = after ∧
      ∀ x, x < a ∨ a + 3 * P.sizeT ≤ x → m' x = m x := by
  intro m'
  have width := P.sizeT_ge
  refine ⟨?_, ?_, fun x away => ?_⟩
  · have value_lt : value.toNat < 256 ^ 4 := value.toNat_lt
    change UInt32.ofNat (Mem.load (Mem.store _ _ 4 value.toNat) _ 4) = value
    rw [Mem.load_store_of_lt value_lt]
    exact UInt32.ofNat_toNat
  · change Mem.load (Mem.store _ _ 4 value.toNat) a P.sizeT = after
    rw [Mem.load_store_out (Or.inl (Nat.le_refl _))]
    exact Platform.get_put small
  · change Mem.store _ _ 4 value.toNat x = m x
    rw [Mem.store_out (by omega)]
    exact Platform.put_out (by omega)

theorem write_key (fits : e.Fits P) (hash : hashVal P m e.addr = value) :
    let m' := (setKeySize P m e.addr e.key.length).write (elemKey P e.addr) e.key
    Stored P m' value e ∧ P.get m' e.addr = P.get m e.addr ∧
      ∀ x, x < e.addr ∨ e.addr + e.extent P ≤ x → m' x = m x := by
  intro m'
  have header := sizeofHeader_le (P := P)
  have length := fits.key_le
  have width := P.sizeT_ge
  rw [sizeofHeader] at header
  have start := elemKey_eq (P := P) e.addr
  have kept : ∀ x, x < e.addr + 2 * P.sizeT ∨ e.addr + e.extent P ≤ x → m' x = m x := by
    intro x away
    rw [Elem.extent] at away
    exact (Mem.write_out (by omega)).trans (Platform.put_out (by omega))
  refine ⟨⟨?_, ?_, ?_⟩, ?_, fun x away => kept x (by omega)⟩
  · rw [← hash]
    exact hashVal_congr fun x within => kept x (Or.inl within.2)
  · have small : e.key.length ≤ P.sizeMax := Nat.le_of_add_right_le fits.key
    exact (Mem.load_write_out (by omega)).trans (Platform.get_put small)
  · rw [← start]
    exact Mem.read_write ..
  · exact Platform.get_congr fun x within => kept x (Or.inl (by have := within.2; omega))

end Fill

/-- The size that `ELEM_SIZE` computes, when it does not wrap. -/
theorem elemSize_eq (asserts : SizeAsserts P limit length valueSize) :
    elemSize P length valueSize = headerSize P + P.ratAlign length + P.ratAlign valueSize := by
  obtain ⟨-, -, whole, -⟩ := asserts
  change headerSize P + _ + _ ≤ _ at whole
  change P.add (P.add (headerSize P) _) _ = _
  rw [Platform.add_of_le (a := headerSize P) (by omega), Platform.add_of_le whole]

theorem SizeAsserts.fits (asserts : SizeAsserts P limit e.key.length e.valueSize) : e.Fits P := by
  obtain ⟨length, -, whole, -⟩ := asserts
  have := P.alignment_le
  have := P.sizeMax_ge
  change headerSize P + _ + _ ≤ _ at whole
  exact ⟨by omega, by omega⟩

theorem SizeAsserts.extent_le (asserts : SizeAsserts P limit e.key.length e.valueSize) :
    e.extent P ≤ elemSize P e.key.length e.valueSize := by
  rw [elemSize_eq asserts]
  obtain ⟨-, length, -, -⟩ := asserts
  have := P.alignment_le
  have := P.sizeMax_ge
  have : e.valueSize ≤ P.ratAlign e.valueSize := Platform.le_ratAlign (by omega)
  rw [Elem.extent]
  omega

theorem SizeAsserts.le (asserts : SizeAsserts P limit length valueSize) :
    elemSize P length valueSize ≤ limit := by
  rw [elemSize_eq asserts]
  exact asserts.2.2.2

/-- `old` made way for `new`, each of them an element or nothing. All other elements stay
where they are, with their keys and values. -/
def Edited (P : Platform) (ok : World σ → Blocks ι → Prop) (bo eo : ι) (f : List UInt8 → UInt32)
    (equals : List UInt8 → List UInt8 → Bool) (p : RMap) (w : World σ) (chains : Nat → List Elem)
    (old new : Option Elem) (p' : RMap) (w' : World σ) : Prop :=
  ∃ L' chains' rest, Holds P ok bo eo f equals p' w' L' chains' ∧
    (members p.bucketCount chains).Perm (old.toList ++ rest) ∧
    (members p'.bucketCount chains').Perm (new.toList ++ rest) ∧
    ∀ x ∈ rest, Set.EqOn w.mem w'.mem (x.body P)

/-- A call that places an element for a key returns its value cell, or NULL if the
elements are those of before. Then the chains are too, unless the table has grown. -/
def Placed (P : Platform) (ok : World σ → Blocks ι → Prop) (bo eo : ι) (f : List UInt8 → UInt32)
    (equals : List UInt8 → List UInt8 → Bool) (p : RMap) (w : World σ) (chains : Nat → List Elem)
    (old : Option Elem) (key : List UInt8) (valueSize : Nat) : Nat × RMap × World σ → Prop
  | (result, p', w') =>
    if result = 0 then Edited P ok bo eo f equals p w chains none none p' w' ∧
      (p'.bucketCount = p.bucketCount → p' = p ∧ ∃ L', Holds P ok bo eo f equals p w' L' chains)
    else ∃ e, e.key = key ∧ e.valueSize = valueSize ∧ e.cell P = result ∧
      Edited P ok bo eo f equals p w chains old (some e) p' w'

theorem Holds.unchanged (holds : Holds P ok bo eo f equals p w L chains) :
    Edited P ok bo eo f equals p w chains none none p w :=
  ⟨L, chains, _, holds, List.Perm.refl _, List.Perm.refl _, fun _ _ _ _ => rfl⟩

theorem Holds.failed (holds : Holds P ok bo eo f equals p w L chains) (after : ok w' L)
    (same : Set.EqOn w.mem w'.mem L.bytes) :
    Placed P ok bo eo f equals p w chains old key valueSize (0, p, w') := by
  have kept := holds.kept after same
  exact ⟨⟨L, chains, _, kept, List.Perm.refl _, List.Perm.refl _, fun _ member =>
    same.mono (holds.housed.body_bytes member)⟩, fun _ => ⟨rfl, L, kept⟩⟩

theorem placed_some (same : e.key = key) (size : e.valueSize = valueSize) (cell : result = e.cell P)
    (edited : Edited P ok bo eo f equals p w chains old (some e) p' w') :
    Placed P ok bo eo f equals p w chains old key valueSize (result, p', w') := by
  have header := sizeofHeader_le (P := P)
  have width := P.sizeT_ge
  rw [sizeofHeader] at header
  have positive : result ≠ 0 := by
    rw [cell, Elem.cell]
    omega
  rw [Placed, if_neg positive]
  exact ⟨e, same, size, cell.symm, edited⟩

/-- Writes to the block of a new element leave the other blocks alone. -/
theorem fill_new (serves : Serves P E eo ok limit) (granted : ok w₁ (L₀.grant e.addr eo actual))
    (fresh : L₀ e.addr = none) (same : Set.EqOn w.mem w₁.mem L₀.bytes)
    (room : e.extent P ≤ actual)
    (inside : ∀ x, x < e.addr ∨ e.addr + e.extent P ≤ x → m x = w₁.mem x) :
    Set.EqOn w.mem m L₀.bytes ∧ ok { w₁ with mem := m } (L₀.grant e.addr eo actual) := by
  have outside : ∀ x, x < e.addr ∨ e.addr + actual ≤ x → m x = w₁.mem x :=
    fun x away => inside x (by omega)
  exact serves.fill same fresh granted outside

theorem addElem_cases (serves : Serves P E eo ok limit)
    (holds : Holds P ok bo eo f equals p w L chains)
    (asserts : SizeAsserts P limit key.length valueSize)
    (room : p.count < p.bucketCount / 2 + p.bucketCount / 4)
    (absent : Compatible f equals → ∀ x ∈ members p.bucketCount chains, ¬equals key x.key) :
    Placed P ok bo eo f equals p w chains none key valueSize
        (addElem P E p w (f key) key valueSize) ∧
      (addElem P E p w (f key) key valueSize).2.1.bucketCount = p.bucketCount := by
  have granted := serves.alloc holds.ok asserts.le
  simp only [addElem]
  generalize ralcAlloc E w (elemSize P key.length valueSize) = attempt at granted ⊢
  obtain ⟨reply, w₁⟩ := attempt
  obtain ⟨same, outcome⟩ := granted
  dsimp only at same outcome ⊢
  by_cases null : reply.ptr = 0
  · rw [if_pos null] at outcome ⊢
    exact ⟨holds.failed outcome same, rfl⟩
  rw [if_neg null] at outcome ⊢
  obtain ⟨actual, -, large, fresh, granted⟩ := outcome
  generalize reply.ptr = ptr at fresh granted null ⊢
  let e : Elem := ⟨ptr, key, valueSize⟩
  have asserts : SizeAsserts P limit e.key.length e.valueSize := asserts
  have roomy : e.extent P ≤ actual := Nat.le_trans asserts.extent_le large
  have nonempty : p.bucketCount ≠ 0 := by omega
  have small := holds.count_le serves
  have inside := bucketIndex_lt small holds.filed.size nonempty (f key)
  have chain := holds.table.linked _ inside
  have count := holds.count
  have cell : P.get w₁.mem (bucket P p.buckets (bucketIndex P (f key) p.bucketCount)) =
      entry 0 ((chains (bucketIndex P (f key) p.bucketCount)).map Elem.addr) := by
    rw [← chain.entry]
    exact (Platform.get_congr fun x within => same (holds.housed.cell_bytes
      (Or.inl ⟨_, inside, rfl⟩) within)).symm
  obtain ⟨hash, after, named⟩ := setHashVal_put (m := w₁.mem) (a := ptr)
    (f key) (Platform.get_le w₁.mem (bucket P p.buckets (bucketIndex P (f key) p.bucketCount)))
  obtain ⟨stored, next, keyed⟩ := write_key (e := e) asserts.fits hash
  have header : 3 * P.sizeT ≤ headerSize P := sizeofHeader_le
  obtain ⟨kept, filled⟩ := fill_new serves granted fresh same roomy fun x away =>
    (keyed x away).trans (named x (by simp only [Elem.extent, e] at away; omega))
  have rest_eq : members p.bucketCount (Function.update chains (bucketIndex P (f key) p.bucketCount)
      ([] ++ chains (bucketIndex P (f key) p.bucketCount))) = members p.bucketCount chains := by
    rw [List.nil_append, Function.update_eq_self]
  have one : P.add p.count 1 = 1 + (members p.bucketCount chains).length := by
    rw [Platform.add_of_le (by omega)]
    omega
  have separate : Left L L none := ⟨serves.separate holds.ok, fun _ _ held _ => held,
    fun _ _ held => ⟨held, fun _ none => by cases none⟩⟩
  have split : chains (bucketIndex P (f key) p.bucketCount) =
      [] ++ (none : Option Elem).toList ++ chains (bucketIndex P (f key) p.bucketCount) := rfl
  obtain ⟨linked, before, behind, bodies⟩ := holds.link serves inside split separate fresh filled
    roomy asserts.fits stored (next.trans (after.trans cell)) kept rfl rest_eq absent one (by omega)
  have value := (linked.table.stored e (behind.mem_iff.mpr List.mem_cons_self)).cell asserts.fits
  exact ⟨placed_some (e := e) rfl rfl value ⟨_, _, _, linked, before, behind, bodies⟩, rfl⟩

/-- A change of a map that holds the same elements as an earlier one. -/
theorem Edited.prepend (edited : Edited P ok bo eo f equals p₁ w₁ chains₁ old new p' w')
    (same : (members p₁.bucketCount chains₁).Perm (members p.bucketCount chains))
    (bodies : ∀ x ∈ members p.bucketCount chains, Set.EqOn w.mem w₁.mem (x.body P)) :
    Edited P ok bo eo f equals p w chains old new p' w' := by
  obtain ⟨L', chains', rest, holds, before, behind, kept⟩ := edited
  refine ⟨L', chains', rest, holds, same.symm.trans before, behind, fun x member => ?_⟩
  have known := same.mem_iff.mp (before.mem_iff.mpr (List.mem_append_right _ member))
  exact (bodies x known).trans (kept x member)

theorem Placed.prepend (placed : Placed P ok bo eo f equals p₁ w₁ chains₁ old key valueSize result)
    (same : (members p₁.bucketCount chains₁).Perm (members p.bucketCount chains))
    (bodies : ∀ x ∈ members p.bucketCount chains, Set.EqOn w.mem w₁.mem (x.body P))
    (grown : result.2.1.bucketCount ≠ p.bucketCount) :
    Placed P ok bo eo f equals p w chains old key valueSize result := by
  obtain ⟨r, p', w'⟩ := result
  simp only [Placed] at placed ⊢
  split
  case isTrue null =>
    rw [if_pos null] at placed
    exact ⟨placed.1.prepend same bodies, fun stays => absurd stays grown⟩
  case isFalse given =>
    rw [if_neg given] at placed
    obtain ⟨e, key, size, cell, edited⟩ := placed
    exact ⟨e, key, size, cell, edited.prepend same bodies⟩

/-- The table has its size of before, or it was full and has grown by one step. -/
def Grew (p p' : RMap) : Prop :=
  p'.bucketCount = p.bucketCount ∨
    p.count ≥ p.bucketCount / 2 + p.bucketCount / 4 ∧ p'.bucketCount = grownCount p.bucketCount

theorem grownCount_room (size : n = 0 ∨ ∃ k, 2 ≤ k ∧ n = 2 ^ k) :
    n / 2 + n / 4 < grownCount n / 2 + grownCount n / 4 := by
  rcases size with rfl | ⟨k, low, rfl⟩
  · decide
  · obtain ⟨j, rfl⟩ := Nat.exists_eq_add_of_le low
    have positive := Nat.two_pow_pos j
    rw [grownCount, if_pos (Nat.two_pow_pos _).ne', Nat.pow_add]
    omega

theorem Holds.newCount_eq (serves : Serves P B bo ok limit) (holds : Holds P ok bo eo f equals p w L chains)
    (full : p.count ≥ p.bucketCount / 2 + p.bucketCount / 4) :
    (if p.bucketCount ≠ 0 then P.mul p.bucketCount 2 else initBucketCount) = grownCount p.bucketCount := by
  have small := (holds.grown_le serves full).2
  rw [grownCount] at small ⊢
  split
  case isTrue nonempty =>
    rw [if_pos nonempty] at small
    exact Platform.mul_of_le small
  case isFalse => rfl

theorem add_cases (servesB : Serves P B bo ok limit) (serves : Serves P E eo ok limit)
    (holds : Holds P ok bo eo f equals p w L chains)
    (asserts : SizeAsserts P limit key.length valueSize) (grow : GrowAsserts P limit p)
    (absent : Compatible f equals → ∀ x ∈ members p.bucketCount chains, ¬equals key x.key) :
    ∃ result, add P B E p w (f key) key valueSize = some result ∧
      Placed P ok bo eo f equals p w chains none key valueSize result ∧ Grew p result.2.1 := by
  rw [add]
  by_cases full : p.count ≥ p.bucketCount / 2 + p.bucketCount / 4
  · rw [if_pos full]
    have larger := holds.newCount_eq servesB full
    obtain ⟨⟨success, p₁, w₁⟩, rehashed, outcome⟩ := rehash_cases servesB holds grow full
    rw [larger, rehashed]
    refine ⟨_, rfl, ?_⟩
    cases success with
    | true =>
      obtain ⟨size, count, ⟨L₁, chains₁, holds₁, same⟩, bodies⟩ := outcome
      have room : p₁.count < p₁.bucketCount / 2 + p₁.bucketCount / 4 := by
        rw [count, size]
        exact Nat.lt_of_le_of_lt holds.load (grownCount_room holds.filed.size)
      obtain ⟨placed, kept⟩ := addElem_cases serves holds₁ asserts room
        fun compatible x member => absent compatible x (same.mem_iff.mp member)
      have different : grownCount p.bucketCount ≠ p.bucketCount := fun stays => by
        have grown := grownCount_room holds.filed.size
        rw [stays] at grown
        exact Nat.lt_irrefl _ grown
      rw [← size, ← kept] at different
      exact ⟨placed.prepend same bodies different, Or.inr ⟨full, kept.trans size⟩⟩
    | false =>
      obtain ⟨rfl, after, same⟩ := outcome
      exact ⟨holds.failed after.ok same, Or.inl rfl⟩
  · rw [if_neg full]
    obtain ⟨placed, kept⟩ := addElem_cases serves holds asserts (Nat.lt_of_not_ge full) absent
    exact ⟨_, rfl, placed, Or.inl kept⟩

section Set

/-- The end of `rmap_set` for a present key: the block of the new element is there, with
its `next` and its hash value. -/
theorem Holds.replace (serves : Serves P E eo ok limit)
    (holds : Holds P ok bo eo f equals p w L chains) (inside : i < p.bucketCount)
    (split : chains i = xs ++ [e] ++ ys) (same_hash : f key = f e.key) (equal : equals key e.key)
    (asserts : SizeAsserts P limit key.length valueSize) (fresh : L.release e.addr ptr = none)
    (granted : ok w₁ ((L.release e.addr).grant ptr eo actual))
    (large : elemSize P key.length valueSize ≤ actual)
    (same : Set.EqOn w.mem w₁.mem (L.release e.addr).bytes)
    (hash : hashVal P w₁.mem ptr = f key) (next : P.get w₁.mem ptr = entry 0 (ys.map Elem.addr)) :
    let m := (setKeySize P w₁.mem ptr key.length).write (elemKey P ptr) key
    let m' := P.put m (exit (bucket P p.buckets i) (xs.map Elem.addr)) ptr
    Placed P ok bo eo f equals p w chains (some e) key valueSize
      (elemValue P m' ptr, p, { w₁ with mem := m' }) := by
  intro m m'
  let e' : Elem := ⟨ptr, key, valueSize⟩
  have asserts : SizeAsserts P limit e'.key.length e'.valueSize := asserts
  have roomy : e'.extent P ≤ actual := Nat.le_trans asserts.extent_le large
  obtain ⟨stored, after, keyed⟩ := write_key (e := e') asserts.fits hash
  obtain ⟨kept, filled⟩ := fill_new serves granted fresh same roomy keyed
  have left : Left L (L.release e.addr) (some e) := left_release (serves.separate holds.ok)
  have before : (members p.bucketCount chains).Perm (e :: members p.bucketCount
      (Function.update chains i (xs ++ ys))) := members_taken inside split
  have differs : Compatible f equals → ∀ x ∈ members p.bucketCount
      (Function.update chains i (xs ++ ys)), ¬equals e'.key x.key := by
    intro compatible x member equal'
    have symmetric : ∀ {a b : Elem}, ¬equals a.key b.key → ¬equals b.key a.key :=
      fun differs equal => differs (compatible.symm _ _ equal)
    have distinct := (before.pairwise_iff symmetric).mp (holds.filed.distinct compatible)
    exact (List.pairwise_cons.mp distinct).1 x member
      (compatible.trans _ _ _ (compatible.symm _ _ equal) equal')
  have placed : bucketIndex P (f e'.key) p.bucketCount = i := by
    rw [same_hash]
    exact holds.filed.placed i inside e (by simp [split])
  have count : p.count = 1 + (members p.bucketCount (Function.update chains i (xs ++ ys))).length := by
    rw [holds.count, before.length_eq, List.length_cons, Nat.add_comm]
  obtain ⟨linked, -, behind, bodies⟩ := holds.link serves inside split left fresh filled
    roomy asserts.fits stored (after.trans next) kept placed rfl differs count holds.load
  have value := (linked.table.stored e' (behind.mem_iff.mpr List.mem_cons_self)).cell asserts.fits
  exact placed_some (e := e') rfl rfl value ⟨_, _, _, linked, before, behind, bodies⟩

/-- A header that was copied keeps its first two members. -/
theorem header_copied (same : ∀ i < 3 * P.sizeT, m' (b + i) = m (a + i)) :
    hashVal P m' b = hashVal P m a ∧ P.get m' b = P.get m a := by
  have width := P.sizeT_ge
  constructor
  · rw [hashVal, hashVal, Mem.load_shift fun i low => ?_]
    rw [Nat.add_assoc, Nat.add_assoc]
    exact same _ (by omega)
  · exact Mem.load_shift fun i low => same i (by omega)

/-- `rmap_set` for a present key: the element is moved by `ralc_realloc`, or a new one takes
its place, or nothing happens. -/
theorem setElem_cases (serves : Serves P E eo ok limit)
    (holds : Holds P ok bo eo f equals p w L chains) (inside : i < p.bucketCount)
    (split : chains i = xs ++ [e] ++ ys) (same_hash : f key = f e.key) (equal : equals key e.key)
    (asserts : SizeAsserts P limit key.length valueSize) :
    let result := setElem P E p w (f key) key valueSize
      (exit (bucket P p.buckets i) (xs.map Elem.addr))
    Placed P ok bo eo f equals p w chains (some e) key valueSize result ∧ result.2.1 = p := by
  have before : (members p.bucketCount chains).Perm (e :: _) := members_taken inside split
  have member : e ∈ members p.bucketCount chains := before.mem_iff.mpr List.mem_cons_self
  have cut : chains i = xs ++ e :: ys := by simpa using split
  obtain ⟨pointed, after⟩ := holds.before inside cut
  obtain ⟨size, held, room⟩ := holds.housed.held e member
  have hash := (holds.table.stored e member).hash
  rw [← same_hash] at hash
  have header : 3 * P.sizeT ≤ headerSize P := sizeofHeader_le
  have regranted := serves.realloc holds.ok held asserts.le
  simp only [setElem, pointed]
  generalize ralcRealloc E w e.addr (elemSize P key.length valueSize) = attempt at regranted ⊢
  obtain ⟨reply, w₁⟩ := attempt
  dsimp only
  by_cases moved : reply.ptr ≠ 0
  · rw [if_pos moved]
    obtain ⟨actual, -, large, relocated⟩ := regranted.relocated moved
    have enough : 3 * P.sizeT ≤ min size (elemSize P key.length valueSize) := by
      rw [elemSize_eq asserts]
      rw [Elem.extent] at room
      omega
    obtain ⟨hash', next'⟩ := header_copied (P := P) fun i low =>
      relocated.bytes i (Nat.lt_of_lt_of_le low enough)
    exact ⟨holds.replace serves inside split same_hash equal asserts relocated.fresh relocated.ok large
      relocated.others (hash'.trans hash) (next'.trans after), rfl⟩
  rw [if_neg moved]
  obtain ⟨-, outcome⟩ := regranted
  rw [if_pos (not_not.mp moved)] at outcome
  obtain ⟨same, refused⟩ := outcome
  have granted := serves.alloc refused asserts.le
  generalize ralcAlloc E w₁ (elemSize P key.length valueSize) = attempt at granted ⊢
  obtain ⟨reply', w₂⟩ := attempt
  obtain ⟨same', outcome⟩ := granted
  dsimp only at same' outcome ⊢
  have kept := same.trans same'
  by_cases null : reply'.ptr = 0
  · rw [if_pos null] at outcome ⊢
    exact ⟨holds.failed outcome kept, rfl⟩
  rw [if_neg null] at outcome ⊢
  obtain ⟨actual, -, large, fresh, granted⟩ := outcome
  have enough : 3 * P.sizeT ≤ actual := by
    rw [elemSize_eq asserts] at large
    omega
  have after' : next P w₂.mem e.addr = entry 0 (ys.map Elem.addr) := by
    rw [← after]
    exact (Platform.get_congr fun x within => kept (holds.housed.cell_bytes
      (Or.inr ⟨e, member, rfl⟩) within)).symm
  obtain ⟨hash', next', named⟩ := setHashVal_put (P := P) (m := w₂.mem) (a := reply'.ptr) (f key)
    (Platform.get_le w₂.mem e.addr)
  obtain ⟨fresh', freed, others, bytes⟩ := serves.replace held kept fresh granted fun x away =>
    named x (by omega)
  obtain ⟨hash'', next''⟩ := header_copied (P := P) fun i low =>
    bytes i (Nat.lt_of_lt_of_le low enough)
  exact ⟨holds.replace serves inside split same_hash equal asserts fresh' freed large others
    (hash''.trans hash') (next''.trans (next'.trans after')), rfl⟩

end Set

/-- What a lookup of the key is about: an element of its class, or nothing if there is
none, as far as the callbacks agree. -/
def Found (f : List UInt8 → UInt32) (equals : List UInt8 → List UInt8 → Bool) (key : List UInt8) (es : List Elem) :
    Option Elem → Prop
  | some e => e ∈ es ∧ equals key e.key
  | none => Compatible f equals → ∀ x ∈ es, ¬equals key x.key

theorem rmapSet_cases (servesB : Serves P B bo ok limit) (serves : Serves P E eo ok limit)
    (holds : Holds P ok bo eo f equals p w L chains)
    (asserts : SizeAsserts P limit key.length valueSize) (grow : GrowAsserts P limit p) :
    ∃ old result, rmapSet P B E p w key valueSize = some result ∧
      Found f equals key (members p.bucketCount chains) old ∧
      Placed P ok bo eo f equals p w chains old key valueSize result ∧ Grew p result.2.1 := by
  rw [rmapSet, holds.hashes]
  rcases find_cases serves holds key with
    ⟨absent, result⟩ | ⟨i, xs, e, ys, inside, split, hash, equal, result⟩
  · rw [result]
    obtain ⟨outcome, added, placed, grew⟩ :=
      add_cases servesB serves holds asserts grow absent
    exact ⟨none, outcome, added, absent, placed, grew⟩
  · rw [result]
    have member : e ∈ members p.bucketCount chains := mem_members.mpr ⟨i, inside, by simp [split]⟩
    obtain ⟨placed, same⟩ := setElem_cases serves holds inside (by simpa using split) hash equal
      asserts
    exact ⟨some e, _, rfl, ⟨member, equal⟩, placed, Or.inl (by rw [same])⟩

/-- A client's byte inside a value changes no link and no stored key. -/
theorem Holds.written (serves : Serves P E eo ok limit)
    (holds : Holds P ok bo eo f equals p w L chains) (member : e ∈ members p.bucketCount chains)
    (inside : i < e.valueSize) :
    Holds P ok bo eo f equals p { w with mem := w.mem.write (e.cell P + i) [byte] } L chains := by
  have separate := serves.separate holds.ok
  have header := sizeofHeader_le (P := P)
  rw [sizeofHeader] at header
  have key := (holds.housed.fits e member).key_le
  have place : e.cell P = e.addr + (headerSize P + P.ratAlign e.key.length) := rfl
  have room : e.extent P = headerSize P + P.ratAlign e.key.length + e.valueSize := rfl
  have here : e.cell P + i ∈ e.body P := ⟨by omega, by omega⟩
  have outside : ∀ x, x ≠ e.cell P + i → w.mem.write (e.cell P + i) [byte] x = w.mem x :=
    fun x other => Mem.write_out (by simp only [List.length_cons, List.length_nil]; omega)
  obtain ⟨size, held, large⟩ := holds.housed.held e member
  have after := serves.inside holds.ok held (m := w.mem.write (e.cell P + i) [byte]) fun x away =>
    outside x (by dsimp only at away; omega)
  refine { holds with ok := after, table := ⟨fun j low => ?_, fun x listed => ?_⟩ }
  · refine (holds.table.linked j low).congr fun c cell => Platform.get_congr fun x within => ?_
    have apart := holds.housed.cell_body separate (chain_cell low cell) member here
    have below := within.1
    have above := within.2
    exact outside x (by omega)
  · refine (holds.table.stored x listed).named fun y within => (outside y ?_).symm
    have low := within.1
    have high := within.2
    by_cases same : x.addr = e.addr
    · have equal : x = e := List.inj_on_of_nodup_map holds.housed.nodup listed member same
      subst equal
      omega
    · have apart := holds.housed.elem_apart separate listed member same
      have body := Elem.named_subset (holds.housed.fits x listed) within
      have high' := body.2
      omega

def cellOf (P : Platform) (old : Option Elem) : Nat := (old.map (Elem.cell P)).getD 0

/-- What a lookup finds is stored where it was found. -/
theorem find_stored (serves : Serves P E eo ok limit)
    (holds : Holds P ok bo eo f equals p w L chains) (key : List UInt8) :
    ∃ old, Found f equals key (members p.bucketCount chains) old ∧
      ∃ found, find P p w.mem key = some found ∧
        found.map (fun prevNext => (elemValue P w.mem (P.get w.mem prevNext),
          storedKey P w.mem (P.get w.mem prevNext))) = old.map fun e => (e.cell P, e.key) := by
  rcases find_cases serves holds key with
    ⟨absent, result⟩ | ⟨i, xs, e, ys, inside, split, -, equal, result⟩
  · exact ⟨none, absent, none, result, rfl⟩
  · have member : e ∈ members p.bucketCount chains := mem_members.mpr ⟨i, inside, by simp [split]⟩
    have stored := holds.table.stored e member
    refine ⟨some e, ⟨member, equal⟩, _, result, ?_⟩
    rw [Option.map_some, (holds.before inside split).1, stored.cell (holds.housed.fits e member),
      stored.storedKey]
    rfl

theorem rmapGet_cases (serves : Serves P E eo ok limit)
    (holds : Holds P ok bo eo f equals p w L chains) (key : List UInt8) :
    ∃ old, Found f equals key (members p.bucketCount chains) old ∧
      rmapGet P p w.mem key = some (cellOf P old) := by
  obtain ⟨old, present, found, result, same⟩ := find_stored serves holds key
  refine ⟨old, present, ?_⟩
  rw [rmapGet, result]
  cases found <;> cases old <;> simp_all [cellOf]

theorem rmapGetOrAdd_cases (servesB : Serves P B bo ok limit) (serves : Serves P E eo ok limit)
    (holds : Holds P ok bo eo f equals p w L chains)
    (asserts : SizeAsserts P limit key.length valueSize) (grow : GrowAsserts P limit p) :
    ∃ old result, rmapGetOrAdd P B E p w key valueSize = some (old.isSome, result) ∧
      Found f equals key (members p.bucketCount chains) old ∧
      match old with
      | some e => result = (e.cell P, p, w)
      | none => Placed P ok bo eo f equals p w chains none key valueSize result ∧ Grew p result.2.1 := by
  rw [rmapGetOrAdd, holds.hashes]
  rcases find_cases serves holds key with
    ⟨absent, result⟩ | ⟨i, xs, e, ys, inside, split, -, equal, result⟩
  · rw [result]
    obtain ⟨outcome, added, placed, grew⟩ :=
      add_cases servesB serves holds asserts grow absent
    refine ⟨none, outcome, ?_, absent, placed, grew⟩
    rw [Option.bind_some, added]
    rfl
  · rw [result]
    have member : e ∈ members p.bucketCount chains := mem_members.mpr ⟨i, inside, by simp [split]⟩
    refine ⟨some e, (e.cell P, p, w), ?_, ⟨member, equal⟩, rfl⟩
    change some (true, elemValue P w.mem (P.get w.mem _), p, w) = _
    rw [(holds.before inside split).1,
      (holds.table.stored e member).cell (holds.housed.fits e member)]
    rfl

theorem rmapRemove_cases (serves : Serves P E eo ok limit)
    (holds : Holds P ok bo eo f equals p w L chains) (key) :
    ∃ old p' w', rmapRemove P E p w key = some (old.isSome, p', w') ∧
      Found f equals key (members p.bucketCount chains) old ∧
      Edited P ok bo eo f equals p w chains old none p' w' ∧ p'.bucketCount = p.bucketCount ∧
      (old = none → p' = p ∧ w' = w) := by
  rw [rmapRemove]
  rcases find_cases serves holds key with
    ⟨absent, result⟩ | ⟨i, xs, e, ys, inside, split, -, equal, result⟩
  · rw [result]
    exact ⟨none, p, w, rfl, absent, holds.unchanged, rfl, fun _ => ⟨rfl, rfl⟩⟩
  · rw [result]
    have member : e ∈ members p.bucketCount chains := mem_members.mpr ⟨i, inside, by simp [split]⟩
    obtain ⟨unlinked, before, bodies⟩ :=
      holds.unlink serves inside (by simpa using split) rfl
    refine ⟨some e, _, _, ?_, ⟨member, equal⟩, ⟨_, _, _, unlinked, before, List.Perm.refl _, bodies⟩,
      rfl, by simp⟩
    change some (true, _, ralcFree E { w with mem := P.put w.mem _ (next P w.mem (P.get w.mem _)) }
      (P.get w.mem _)) = _
    rw [(holds.before inside split).1]
    rfl

end Ratlib.Rmap
