import Ratlib.Library.Dictionary
import Ratlib.Library.Runs
import Ratlib.Rmap.Iteration

/-! Runs of a hash map: the calls of rmap, the iterators over it, and the bytes a client
writes into values, beside the entries that a client was told of. -/
namespace Ratlib.Rmap

open Dictionary Hash

/-- What a client knows of a key: its value cell, and the size it asked for. -/
structure Entry where
  key : List UInt8
  cell : Nat
  valueSize : Nat

/-- An iterator, and the value that it returned last, unless that was removed. -/
structure Iter where
  it : IterAll
  value : Nat

/-- A map, its allocators' world, the entries, and the iterators that are still valid, by
any numbers. -/
structure State (σ : Type u) where
  map : RMap
  world : World σ
  entries : List Entry
  iters : Nat → Option Iter

inductive Op where
  | set (key : List UInt8) (valueSize : Nat)
  | get (key : List UInt8)
  | getOrAdd (key : List UInt8) (valueSize : Nat)
  | remove (key : List UInt8)
  | clear
  | getAll (i : Nat)
  | next (i : Nat)
  | removeElem (i : Nat)
  | write (cell i : Nat) (byte : UInt8)

structure Result where
  flag : Bool
  value : Nat

variable (P : Platform) {σ : Type u} {ι : Type v} (B E : Ralc σ)

/-- Iterators stay valid as long as the map is not modified. -/
def validWhile (unmodified : Bool) (iters : Nat → Option Iter) : Nat → Option Iter :=
  if unmodified then iters else fun _ => none

def call (s : State σ) : Op → Option (Result × RMap × World σ × (Nat → Option Iter))
  | .set key valueSize => (rmapSet P B E s.map s.world key valueSize).map fun (value, p, w) =>
    (⟨false, value⟩, p, w, validWhile (value == 0 && p.bucketCount == s.map.bucketCount) s.iters)
  | .get key => (rmapGet P s.map s.world.mem key).map fun value =>
    (⟨false, value⟩, s.map, s.world, s.iters)
  | .getOrAdd key valueSize =>
    (rmapGetOrAdd P B E s.map s.world key valueSize).map fun (flag, value, p, w) =>
      (⟨flag, value⟩, p, w,
        validWhile (flag || value == 0 && p.bucketCount == s.map.bucketCount) s.iters)
  | .remove key => (rmapRemove P E s.map s.world key).map fun (flag, p, w) =>
    (⟨flag, 0⟩, p, w, validWhile (!flag) s.iters)
  | .clear => (rmapClear P B E s.map s.world).map fun (p, w) =>
    (⟨false, 0⟩, p, w, validWhile (s.map.bucketCount == 0) s.iters)
  | .getAll i =>
    some (⟨false, 0⟩, s.map, s.world, Function.update s.iters i (some ⟨rmapGetAll, 0⟩))
  | .next i => (s.iters i).map fun iter =>
    let (value, _, it) := rmapIterAllNext P s.map s.world.mem iter.it
    (⟨false, value⟩, s.map, s.world, Function.update s.iters i (some ⟨it, value⟩))
  | .removeElem i => (s.iters i).map fun iter =>
    let (it, p, w) := rmapIterAllRemoveElem P E s.map s.world iter.it
    (⟨false, 0⟩, p, w, fun j => if j = i then some ⟨it, 0⟩ else none)
  | .write cell i byte =>
    some (⟨false, 0⟩, s.map, { s.world with mem := s.world.mem.write (cell + i) [byte] }, s.iters)

/-- What the source asserts, with sizes that do not wrap; writes stay inside values. -/
def Op.Asserts (limit : Nat) (s : State σ) : Op → Prop
  | .set key valueSize | .getOrAdd key valueSize =>
    SizeAsserts P limit key.length valueSize ∧ GrowAsserts P limit s.map
  | .get _ | .remove _ | .clear | .getAll _ => True
  | .next i => (s.iters i).isSome
  | .removeElem i => ∃ iter ∈ s.iters i,
    iter.it.last ≠ 0 ∧ iter.it.lastPrevNext ≠ 0 ∧ s.map.count ≠ 0
  | .write cell i _ => ∃ x ∈ s.entries, x.cell = cell ∧ i < x.valueSize

instance (limit : Nat) (s : State σ) : (op : Op) → Decidable (op.Asserts P limit s)
  | .set .. | .getOrAdd .. => inferInstanceAs (Decidable (_ ∧ _))
  | .get _ | .remove _ | .clear | .getAll _ => .isTrue trivial
  | .next _ => inferInstanceAs (Decidable (_ = true))
  | .removeElem i => inferInstanceAs (Decidable (∃ iter ∈ s.iters i, _))
  | .write .. => inferInstanceAs (Decidable (∃ x ∈ s.entries, _))

/-- What the result of a call makes of the entries: a new value cell for a key, or the
entries of a key, of a removed element or all entries less. -/
def Op.edit (s : State σ) (result : Result) : Op → List Entry
  | .set key valueSize =>
    if result.value = 0 then s.entries
    else ⟨key, result.value, valueSize⟩ :: without s.map.equals Entry.key key s.entries
  | .getOrAdd key valueSize =>
    if result.flag ∨ result.value = 0 then s.entries else ⟨key, result.value, valueSize⟩ :: s.entries
  | .remove key => without s.map.equals Entry.key key s.entries
  | .clear => []
  | .removeElem i => s.entries.filter fun x => (s.iters i).all fun iter => x.cell != iter.value
  | .get _ | .getAll _ | .next _ | .write .. => s.entries

/-- The class of `k` is what the call was about, and it was not in vain. -/
def Op.Concerns (s : State σ) (result : Result) (k : List UInt8) : Op → Prop
  | .set key _ => result.value ≠ 0 ∧ s.map.equals key k
  | .getOrAdd key _ => ¬result.flag ∧ result.value ≠ 0 ∧ s.map.equals key k
  | .remove key => s.map.equals key k
  | .clear => True
  | .removeElem i => ∃ iter ∈ s.iters i, ∃ x ∈ s.entries, x.cell = iter.value ∧ s.map.equals x.key k
  | .write cell _ _ => ∃ x ∈ s.entries, x.cell = cell ∧ s.map.equals x.key k
  | .get _ | .getAll _ | .next _ => False

def valueOf (x : Option Entry) : Nat := (x.map Entry.cell).getD 0

/-- What calls report: the presence of a key and its value cell. -/
def Op.Returns (s : State σ) (result : Result) : Op → Prop
  | .get key => result.value = valueOf (lookup s.map.equals Entry.key key s.entries)
  | .getOrAdd key _ =>
    result.flag = (lookup s.map.equals Entry.key key s.entries).isSome ∧
      (result.flag → result.value = valueOf (lookup s.map.equals Entry.key key s.entries))
  | .remove key => result.flag = (lookup s.map.equals Entry.key key s.entries).isSome
  | .set .. | .clear | .getAll _ | .next _ | .removeElem _ | .write .. => True

def Op.Writes : Op → Prop
  | .write .. => True
  | .set .. | .get _ | .getOrAdd .. | .remove _ | .clear | .getAll _ | .next _ | .removeElem _ => False

def Op.Inserts : Op → Prop
  | .set .. | .getOrAdd .. => True
  | .get _ | .remove _ | .clear | .getAll _ | .next _ | .removeElem _ | .write .. => False

def step (limit : Nat) (s : State σ) (op : Op) : Option (State σ) :=
  if op.Asserts P limit s then
    (call P B E s op).map fun (result, p, w, iters) => ⟨p, w, op.edit s result, iters⟩
  else none

def start (key0 key1 : UInt32) (hash : Option (List UInt8 → RHash → UInt32))
    (equals : Option (List UInt8 → List UInt8 → Bool)) (w : World σ) : State σ :=
  ⟨rmapInit P key0 key1 hash equals, w, [], fun _ => none⟩

variable {P} {B E} {ok : World σ → Blocks ι → Prop} {bo eo : ι} {f : List UInt8 → UInt32}
  {equals : List UInt8 → List UInt8 → Bool} {p p' : RMap} {w w' : World σ} {L L' : Blocks ι}
  {chains : Nat → List Elem} {es rest : List Elem} {e e' : Elem} {old new : Option Elem} {m m' : Mem}
  {base n : Nat} {s s' : State σ} {entries : List Entry} {k key : List UInt8}

def Elem.entry (P : Platform) (e : Elem) : Entry := ⟨e.key, e.cell P, e.valueSize⟩

/-- An iterator stands before the rest of a chain, behind the element it returned. -/
def Iter.Valid (P : Platform) (p : RMap) (chains : Nat → List Elem) (iter : Iter) : Prop :=
  ∃ tail, Stands P p.buckets p.bucketCount chains iter.it tail ∧
    (iter.it.last = 0 ∨ ∃ e, Last P p.buckets chains iter.it tail e ∧ iter.value = e.cell P)

/-- The entries are those of the elements, if the callbacks agree. -/
def Inv (P : Platform) (ok : World σ → Blocks ι → Prop) (bo eo : ι) (f : List UInt8 → UInt32)
    (equals : List UInt8 → List UInt8 → Bool) (s : State σ) : Prop :=
  ∃ L chains, Holds P ok bo eo f equals s.map s.world L chains ∧
    (Compatible f equals →
      ((members s.map.bucketCount chains).map (Elem.entry P)).Perm s.entries) ∧
    ∀ i iter, s.iters i = some iter → iter.Valid P s.map chains

def Keeps (m m' : Mem) (x : Entry) : Prop := ∀ i < x.valueSize, m' (x.cell + i) = m (x.cell + i)

theorem Elem.body_keeps (same : ∀ e ∈ es, Set.EqOn m m' (e.body P)) :
    ∀ x ∈ es.map (Elem.entry P), Keeps m m' x := by
  intro x listed i low
  obtain ⟨e, member, rfl⟩ := List.mem_map.mp listed
  have header := sizeofHeader_le (P := P)
  rw [sizeofHeader] at header
  refine (same e member ⟨?_, ?_⟩).symm
  · simp only [Elem.entry, Elem.cell]
    omega
  · simp only [Elem.entry, Elem.cell, Elem.extent] at low ⊢
    omega

/-- The entries of the elements that were found and of the others. -/
theorem Found.others (found : Found f equals key es old) (same : es.Perm (old.toList ++ rest))
    (compatible : Compatible f equals)
    (distinct : es.Pairwise fun e e' => ¬equals e.key e'.key) :
    ∀ x ∈ rest, ¬equals key x.key := by
  have symmetric : ∀ {a b : Elem}, ¬equals a.key b.key → ¬equals b.key a.key :=
    fun differs equal => differs (compatible.symm _ _ equal)
  have split := (same.pairwise_iff symmetric).mp distinct
  intro x member equal
  cases old with
  | none => exact found compatible x (same.mem_iff.mpr member) equal
  | some e =>
    exact (List.pairwise_cons.mp split).1 x member
      (compatible.trans _ _ _ (compatible.symm _ _ found.2) equal)

theorem Compatible.equivalence (compatible : Compatible f equals) :
    Equivalence fun a b => equals a b = true :=
  ⟨compatible.refl, fun equal => compatible.symm _ _ equal, fun equal => compatible.trans _ _ _ equal⟩

/-- The entries are distinct, and a lookup in them finds what is found in the map. -/
theorem Holds.distinct (holds : Holds P ok bo eo f equals p w L chains)
    (compatible : Compatible f equals)
    (same : ((members p.bucketCount chains).map (Elem.entry P)).Perm entries) :
    Distinct equals Entry.key entries := by
  have symmetric : ∀ {a b : Entry}, ¬equals a.key b.key → ¬equals b.key a.key :=
    fun differs equal => differs (compatible.symm _ _ equal)
  refine (same.pairwise_iff symmetric).mp (List.pairwise_map.mpr ?_)
  exact holds.filed.distinct compatible

theorem Found.lookup (found : Found f equals key es old) (compatible : Compatible f equals)
    (same : (es.map (Elem.entry P)).Perm entries) (distinct : Distinct equals Entry.key entries) :
    lookup equals Entry.key key entries = old.map (Elem.entry P) := by
  cases old with
  | none =>
    refine lookup_eq_none fun x member => ?_
    obtain ⟨e, listed, rfl⟩ := List.mem_map.mp (same.mem_iff.mpr member)
    exact found compatible e listed
  | some e =>
    exact lookup_eq_some compatible.equivalence distinct
      (same.mem_iff.mp (List.mem_map_of_mem found.1)) found.2

/-- Dropping the class of a key from the entries drops what was found. -/
theorem Found.dropped (found : Found f equals key es old) (split : es.Perm (old.toList ++ rest))
    (compatible : Compatible f equals)
    (distinct : es.Pairwise fun e e' => ¬equals e.key e'.key)
    (before : entries.Perm (old.toList.map (Elem.entry P) ++ rest.map (Elem.entry P))) :
    (∀ x ∈ old.toList.map (Elem.entry P), equals key x.key) ∧
      (without equals Entry.key key entries).Perm (rest.map (Elem.entry P)) := by
  have gone : ∀ x ∈ old.toList.map (Elem.entry P), equals key x.key := by
    intro x listed
    obtain ⟨x, member, rfl⟩ := List.mem_map.mp listed
    cases Option.mem_toList.mp member
    exact found.2
  refine ⟨gone, without_perm before gone fun x listed => ?_⟩
  obtain ⟨x, member, rfl⟩ := List.mem_map.mp listed
  exact found.others split compatible distinct x member

theorem Housed.cell_inj (housed : Housed P L bo eo base n es) (separate : L.Separate)
    (member : e ∈ es) (member' : e' ∈ es) (same : e.cell P = e'.cell P) : e.addr = e'.addr := by
  by_contra different
  have apart := housed.elem_apart separate member member' different
  have header := sizeofHeader_le (P := P)
  have width := P.sizeT_ge
  rw [sizeofHeader] at header
  simp only [Elem.cell, Elem.extent] at same apart
  omega

theorem validWhile_some (valid : validWhile unmodified iters i = some iter) :
    unmodified ∧ iters i = some iter := by
  cases unmodified with
  | true => exact ⟨rfl, valid⟩
  | false => cases valid

/-- The elements and their entries before and after a change. -/
theorem Edited.effect (edited : Edited P ok bo eo f equals p w chains old new p' w')
    (holds : Holds P ok bo eo f equals p w L chains) :
    ∃ L' chains' rest, Holds P ok bo eo f equals p' w' L' chains' ∧
      (members p.bucketCount chains).Perm (old.toList ++ rest) ∧
      ((members p.bucketCount chains).map (Elem.entry P)).Perm
        (old.toList.map (Elem.entry P) ++ rest.map (Elem.entry P)) ∧
      ((members p'.bucketCount chains').map (Elem.entry P)).Perm
        (new.toList.map (Elem.entry P) ++ rest.map (Elem.entry P)) ∧
      p.count = old.toList.length + rest.length ∧ p'.count = new.toList.length + rest.length ∧
      ∀ x ∈ rest.map (Elem.entry P), Keeps w.mem w'.mem x := by
  obtain ⟨L', chains', rest, holds', before, behind, bodies⟩ := edited
  have map := before.map (Elem.entry P)
  have map' := behind.map (Elem.entry P)
  rw [List.map_append] at map map'
  refine ⟨L', chains', rest, holds', before, map, map', ?_, ?_, Elem.body_keeps bodies⟩
  · rw [holds.count, before.length_eq, List.length_append]
  · rw [holds'.count, behind.length_eq, List.length_append]

/-- What an insertion does to the entries, and to the iterators. -/
theorem Placed.effect (placed : Placed P ok bo eo f equals s.map s.world chains old key valueSize
      (value, p', w')) (holds : Holds P ok bo eo f equals s.map s.world L chains)
    (same : Compatible f equals →
      ((members s.map.bucketCount chains).map (Elem.entry P)).Perm s.entries)
    (valid : ∀ i iter, s.iters i = some iter → iter.Valid P s.map chains)
    (found : Found f equals key (members s.map.bucketCount chains) old) :
    Inv P ok bo eo f equals ⟨p', w', if value = 0 then s.entries
        else ⟨key, value, valueSize⟩ :: without equals Entry.key key s.entries,
        validWhile (value == 0 && p'.bucketCount == s.map.bucketCount) s.iters⟩ ∧
      (Compatible f equals → ∀ x ∈ s.entries, ¬(value ≠ 0 ∧ equals key x.key) →
        Keeps s.world.mem w'.mem x) ∧
      s.map.count ≤ p'.count ∧ (value = 0 → p'.count = s.map.count) := by
  by_cases null : value = 0
  · rw [Placed, if_pos null] at placed
    obtain ⟨edited, stays⟩ := placed
    obtain ⟨L', chains', rest, holds', -, before, behind, count, count', keeps⟩ := edited.effect holds
    refine ⟨?_, fun compatible x member _ => ?_, by omega, fun _ => by omega⟩
    · rw [if_pos null, null]
      by_cases unmodified : p'.bucketCount = s.map.bucketCount
      · obtain ⟨rfl, L'', holds''⟩ := stays unmodified
        exact ⟨L'', chains, holds'', same, fun i iter there => valid i iter (validWhile_some there).2⟩
      · refine ⟨L', chains', holds', fun compatible => ?_, fun i iter there => ?_⟩
        · exact behind.trans (before.symm.trans (same compatible))
        · have stayed := (validWhile_some there).1
          simp [unmodified] at stayed
    · exact keeps x (before.mem_iff.mp ((same compatible).mem_iff.mpr member))
  · rw [Placed, if_neg null] at placed
    obtain ⟨e, rfl, rfl, rfl, edited⟩ := placed
    obtain ⟨L', chains', rest, holds', split, before, behind, count, count', keeps⟩ :=
      edited.effect holds
    have dropped := fun compatible => found.dropped split compatible
      (holds.filed.distinct compatible) ((same compatible).symm.trans before)
    refine ⟨⟨L', chains', holds', fun compatible => ?_, fun i iter there => ?_⟩,
      fun compatible x member apart => ?_, ?_, fun zero => absurd zero null⟩
    · rw [if_neg null]
      exact behind.trans ((dropped compatible).2.symm.cons _)
    · have stayed := (validWhile_some there).1
      simp [null] at stayed
    · have listed := before.mem_iff.mp ((same compatible).mem_iff.mpr member)
      refine keeps x ((List.mem_append.mp listed).resolve_left fun gone => ?_)
      exact apart ⟨null, (dropped compatible).1 x gone⟩
    · have one : old.toList.length ≤ 1 := by cases old <;> simp
      rw [count, count']
      exact Nat.add_le_add_right one _

/-- What a call does to a state. What it means for a key takes callbacks that agree. -/
structure Effect (P : Platform) (ok : World σ → Blocks ι → Prop) (bo eo : ι)
    (f : List UInt8 → UInt32) (equals : List UInt8 → List UInt8 → Bool) (s : State σ) (op : Op)
    (result : Result) (s' : State σ) : Prop where
  inv : Inv P ok bo eo f equals s'
  returns : Compatible f equals → op.Returns s result
  keeps : Compatible f equals → ∀ x ∈ s.entries, ¬op.Concerns s result x.key →
    Keeps s.world.mem s'.world.mem x
  grew : op.Inserts → Grew s.map s'.map ∧ s.map.count ≤ s'.map.count ∧
    (result.value = 0 → s'.map.count = s.map.count)

section Effects
variable {limit : Nat} (servesB : Serves P B bo ok limit) (serves : Serves P E eo ok limit)
  (holds : Holds P ok bo eo f equals s.map s.world L chains)
  (same : Compatible f equals →
    ((members s.map.bucketCount chains).map (Elem.entry P)).Perm s.entries)
  (valid : ∀ i iter, s.iters i = some iter → iter.Valid P s.map chains)

include servesB serves holds same valid in
theorem set_effect (asserts : (Op.set key valueSize).Asserts P limit s) :
    ∃ result p' w' iters, call P B E s (.set key valueSize) = some (result, p', w', iters) ∧
      Effect P ok bo eo f equals s (.set key valueSize) result
        ⟨p', w', (Op.set key valueSize).edit s result, iters⟩ := by
  obtain ⟨sizes, grow⟩ := asserts
  obtain ⟨old, ⟨value, p', w'⟩, result, found, placed, grew⟩ :=
    rmapSet_cases servesB serves holds sizes grow
  obtain ⟨inv, keeps, more, fails⟩ := placed.effect holds same valid found
  refine ⟨⟨false, value⟩, p', w', _, by rw [call, result]; rfl, ?_, fun _ => trivial, ?_,
    fun _ => ⟨grew, more, fails⟩⟩
  · simpa only [Op.edit, holds.compares] using inv
  · simpa only [Op.Concerns, holds.compares] using keeps

include servesB serves holds same valid in
theorem getOrAdd_effect (asserts : (Op.getOrAdd key valueSize).Asserts P limit s) :
    ∃ result p' w' iters, call P B E s (.getOrAdd key valueSize) = some (result, p', w', iters) ∧
      Effect P ok bo eo f equals s (.getOrAdd key valueSize) result
        ⟨p', w', (Op.getOrAdd key valueSize).edit s result, iters⟩ := by
  obtain ⟨sizes, grow⟩ := asserts
  obtain ⟨old, ⟨value, p', w'⟩, result, found, outcome⟩ :=
    rmapGetOrAdd_cases servesB serves holds sizes grow
  have looked : Compatible f equals →
      lookup s.map.equals Entry.key key s.entries = old.map (Elem.entry P) := by
    intro compatible
    rw [holds.compares]
    exact found.lookup compatible (same compatible) (holds.distinct compatible (same compatible))
  refine ⟨⟨old.isSome, value⟩, p', w', _, by rw [call, result]; rfl, ?_⟩
  cases old with
  | some e =>
    cases outcome
    refine ⟨?_, fun compatible => ?_, fun _ _ _ _ _ _ => rfl,
      fun _ => ⟨Or.inl rfl, Nat.le_refl _, fun _ => rfl⟩⟩
    · exact ⟨L, chains, holds, same, valid⟩
    · rw [Op.Returns, looked compatible]
      exact ⟨rfl, fun _ => rfl⟩
  | none =>
    obtain ⟨placed, grew⟩ := outcome
    obtain ⟨⟨L', chains', holds', same', valid'⟩, keeps, more, fails⟩ :=
      placed.effect holds same valid found
    have absent : Compatible f equals → ∀ x ∈ s.entries, ¬equals key x.key := by
      intro compatible x member
      obtain ⟨e, listed, rfl⟩ := List.mem_map.mp ((same compatible).mem_iff.mpr member)
      exact found compatible e listed
    refine ⟨⟨L', chains', holds', fun compatible => ?_, ?_⟩, fun compatible => ?_, ?_,
      fun _ => ⟨grew, more, fails⟩⟩
    · have kept := same' compatible
      rw [without_absent (absent compatible)] at kept
      simpa only [Op.edit, Option.isSome_none, Bool.false_eq_true, false_or] using kept
    · simpa only [Option.isSome_none, Bool.false_or] using valid'
    · rw [Op.Returns, looked compatible]
      exact ⟨rfl, by simp⟩
    · simpa only [Op.Concerns, holds.compares, Option.isSome_none, Bool.false_eq_true, not_false_eq_true,
        true_and] using keeps

include serves holds same valid in
theorem remove_effect : ∃ result p' w' iters,
    call P B E s (.remove key) = some (result, p', w', iters) ∧
      Effect P ok bo eo f equals s (.remove key) result
        ⟨p', w', (Op.remove key).edit s result, iters⟩ := by
  obtain ⟨old, p', w', result, found, edited, size, absent⟩ := rmapRemove_cases serves holds key
  obtain ⟨L', chains', rest, holds', split, before, behind, count, count', keeps⟩ :=
    edited.effect holds
  have dropped : Compatible f equals → (∀ x ∈ old.toList.map (Elem.entry P), s.map.equals key x.key) ∧
      (without s.map.equals Entry.key key s.entries).Perm (rest.map (Elem.entry P)) := by
    intro compatible
    rw [holds.compares]
    exact found.dropped split compatible (holds.filed.distinct compatible)
      ((same compatible).symm.trans before)
  refine ⟨⟨old.isSome, 0⟩, p', w', _, by rw [call, result]; rfl, ?_, fun compatible => ?_, ?_,
    False.elim⟩
  · cases old with
    | some e =>
      exact ⟨L', chains', holds', fun compatible => behind.trans (dropped compatible).2.symm,
        fun i iter there => by cases there⟩
    | none =>
      obtain ⟨rfl, rfl⟩ := absent rfl
      exact ⟨L, chains, holds, fun compatible => before.trans (dropped compatible).2.symm, valid⟩
  · have looked := found.lookup compatible (same compatible)
      (holds.distinct compatible (same compatible))
    rw [← holds.compares] at looked
    rw [Op.Returns, looked, Option.isSome_map]
  · intro compatible x member apart
    have listed := before.mem_iff.mp ((same compatible).mem_iff.mpr member)
    exact keeps x ((List.mem_append.mp listed).resolve_left fun gone =>
      apart ((dropped compatible).1 x gone))

include servesB serves holds valid in
theorem clear_effect : ∃ result p' w' iters, call P B E s .clear = some (result, p', w', iters) ∧
    Effect P ok bo eo f equals s .clear result ⟨p', w', Op.clear.edit s result, iters⟩ := by
  obtain ⟨p', w', L', result, none, holds', stays⟩ := rmapClear_cases servesB serves holds
  refine ⟨⟨false, 0⟩, p', w', _, by rw [call, result]; rfl, ?_, fun _ => trivial,
    fun _ x _ apart => absurd trivial apart, False.elim⟩
  by_cases empty : s.map.bucketCount = 0
  · obtain ⟨rfl, rfl⟩ := stays empty
    exact ⟨L, chains, holds, fun _ => by simp [empty, members, Op.edit], fun i iter there =>
      valid i iter (validWhile_some there).2⟩
  · refine ⟨L', _, holds', fun _ => by simp [members, Op.edit], fun i iter there => ?_⟩
    have stayed := (validWhile_some there).1
    simp [empty] at stayed

include serves holds same valid in
theorem next_effect (asserts : (Op.next i).Asserts P limit s) : ∃ result p' w' iters,
    call P B E s (.next i) = some (result, p', w', iters) ∧ Effect P ok bo eo f equals s (.next i)
      result ⟨p', w', (Op.next i).edit s result, iters⟩ := by
  obtain ⟨iter, there⟩ := Option.isSome_iff_exists.mp asserts
  obtain ⟨tail, stands, -⟩ := valid i iter there
  have moved : ∃ value k it', rmapIterAllNext P s.map s.world.mem iter.it = (value, k, it') ∧
      Iter.Valid P s.map chains ⟨it', value⟩ := by
    have next := next_cases serves holds stands
    cases left : remaining s.map.bucketCount chains iter.it tail with
    | nil =>
      rw [left] at next
      obtain ⟨it', result, stands', -, last⟩ := next
      exact ⟨0, [], it', result, [], stands', Or.inl last⟩
    | cons e rest =>
      rw [left] at next
      obtain ⟨it', tail', result, stands', last, -⟩ := next
      exact ⟨_, _, it', result, tail', stands', Or.inr ⟨e, last, rfl⟩⟩
  obtain ⟨value, k, it', result, valid'⟩ := moved
  refine ⟨⟨false, value⟩, s.map, s.world, Function.update s.iters i (some ⟨it', value⟩),
    by rw [call, there, Option.map_some, result], ?_, fun _ => trivial, fun _ _ _ _ _ _ => rfl,
    False.elim⟩
  refine ⟨L, chains, holds, same, fun j iter' there' => ?_⟩
  dsimp only at there'
  by_cases here : j = i
  · subst here
    rw [Function.update_self] at there'
    cases there'
    exact valid'
  · rw [Function.update_of_ne here] at there'
    exact valid j iter' there'

include serves holds same valid in
theorem removeElem_effect (asserts : (Op.removeElem i).Asserts P limit s) : ∃ result p' w' iters,
    call P B E s (.removeElem i) = some (result, p', w', iters) ∧
      Effect P ok bo eo f equals s (.removeElem i) result
        ⟨p', w', (Op.removeElem i).edit s result, iters⟩ := by
  obtain ⟨iter, there, nonnull, -⟩ := asserts
  obtain ⟨tail, stands, last⟩ := valid i iter there
  obtain ⟨e, last, value⟩ := last.resolve_left nonnull
  obtain ⟨it', w', L', chains', result, holds', stands', none, -, ⟨rest, whole, rest_eq, bodies⟩, -⟩ :=
    removeElem_cases serves holds stands last
  have before : Compatible f equals → s.entries.Perm (e.entry P :: rest.map (Elem.entry P)) :=
    fun compatible => (same compatible).symm.trans (whole.map (Elem.entry P))
  have separate := serves.separate holds.ok
  have nodup := (whole.map Elem.addr).nodup_iff.mp holds.housed.nodup
  have others : ∀ x ∈ rest, x.cell P ≠ e.cell P := by
    intro x member equal
    have known := whole.mem_iff.mpr (List.mem_cons_of_mem e member)
    have addr := holds.housed.cell_inj separate known (whole.mem_iff.mpr List.mem_cons_self) equal
    exact (List.nodup_cons.mp nodup).1 (addr ▸ List.mem_map_of_mem member)
  have left : Compatible f equals →
      ((Op.removeElem i).edit s ⟨false, 0⟩).Perm (rest.map (Elem.entry P)) := by
    intro compatible
    rw [Op.edit, there]
    refine ((before compatible).filter _).trans ?_
    have stays : (rest.map (Elem.entry P)).filter (fun x => x.cell != iter.value) =
        rest.map (Elem.entry P) := by
      refine List.filter_eq_self.mpr fun x listed => ?_
      obtain ⟨x, member, rfl⟩ := List.mem_map.mp listed
      rw [value]
      exact bne_iff_ne.mpr (others x member)
    simp only [Option.all_some]
    rw [List.filter_cons_of_neg (by simp [value, Elem.entry]), stays]
  refine ⟨⟨false, 0⟩, _, _, _, by rw [call, there, Option.map_some, result], ?_, fun _ => trivial, ?_,
    False.elim⟩
  · refine ⟨L', chains', holds', fun compatible => ?_, fun j iter' there' => ?_⟩
    · rw [rest_eq]
      exact (left compatible).symm
    · dsimp only at there'
      split at there'
      case isTrue =>
        cases there'
        exact ⟨tail, stands', Or.inl none⟩
      case isFalse => cases there'
  · intro compatible x member apart
    rcases List.mem_cons.mp ((before compatible).mem_iff.mp member) with rfl | listed
    · refine absurd ⟨iter, there, _, member, value.symm, ?_⟩ apart
      rw [holds.compares]
      exact compatible.refl _
    · exact Elem.body_keeps bodies x listed

include serves holds same valid in
theorem write_effect (compatible : Compatible f equals)
    (asserts : (Op.write cell i byte).Asserts P limit s) :
    Effect P ok bo eo f equals s (.write cell i byte) ⟨false, 0⟩
      ⟨s.map, { s.world with mem := s.world.mem.write (cell + i) [byte] }, s.entries, s.iters⟩ := by
  obtain ⟨x, known, rfl, inside⟩ := asserts
  obtain ⟨e, member, rfl⟩ := List.mem_map.mp ((same compatible).mem_iff.mpr known)
  refine ⟨⟨L, chains, holds.written serves member inside, same, valid⟩, fun _ => trivial,
    fun _ y known' apart => ?_, False.elim⟩
  obtain ⟨e', member', rfl⟩ := List.mem_map.mp ((same compatible).mem_iff.mpr known')
  have different : e'.addr ≠ e.addr := by
    intro addr
    cases List.inj_on_of_nodup_map holds.housed.nodup member' member addr
    refine apart ⟨_, known', rfl, ?_⟩
    rw [holds.compares]
    exact compatible.refl _
  have elsewhere := holds.housed.elem_apart (serves.separate holds.ok) member' member different
  intro j low
  simp only [Elem.entry, Elem.cell, Elem.extent] at low inside elsewhere
  refine Mem.write_out ?_
  simp only [Elem.entry, Elem.cell, List.length_singleton]
  omega

end Effects

/-- What the source asserts, every call survives. Writes into values take callbacks that
agree: without them no list of entries says what is a value. -/
theorem call_effect (servesB : Serves P B bo ok limit) (serves : Serves P E eo ok limit)
    (inv : Inv P ok bo eo f equals s) (op : Op) (agree : op.Writes → Compatible f equals)
    (asserts : op.Asserts P limit s) :
    ∃ result p' w' iters, call P B E s op = some (result, p', w', iters) ∧
      Effect P ok bo eo f equals s op result ⟨p', w', op.edit s result, iters⟩ := by
  obtain ⟨L, chains, holds, same, valid⟩ := inv
  cases op with
  | set key valueSize => exact set_effect servesB serves holds same valid asserts
  | get key =>
    obtain ⟨old, found, result⟩ := rmapGet_cases serves holds key
    refine ⟨⟨false, cellOf P old⟩, s.map, s.world, s.iters, by rw [call, result]; rfl,
      ⟨L, chains, holds, same, valid⟩, fun compatible => ?_, fun _ _ _ _ _ _ => rfl, False.elim⟩
    have looked := found.lookup compatible (same compatible)
      (holds.distinct compatible (same compatible))
    rw [Op.Returns, holds.compares, looked, valueOf, cellOf, Option.map_map]
    rfl
  | getOrAdd key valueSize => exact getOrAdd_effect servesB serves holds same valid asserts
  | remove key => exact remove_effect serves holds same valid
  | clear => exact clear_effect servesB serves holds valid
  | getAll i =>
    refine ⟨⟨false, 0⟩, s.map, s.world, _, rfl, ⟨L, chains, holds, same, fun j iter there => ?_⟩,
      fun _ => trivial, fun _ _ _ _ _ _ => rfl, False.elim⟩
    dsimp only at there
    by_cases here : j = i
    · subst here
      rw [Function.update_self] at there
      cases there
      exact ⟨[], stands_getAll, Or.inl rfl⟩
    · rw [Function.update_of_ne here] at there
      exact valid j iter there
  | next i => exact next_effect serves holds same valid asserts
  | removeElem i => exact removeElem_effect serves holds same valid asserts
  | write cell i byte =>
    exact ⟨_, _, _, _, rfl, write_effect serves holds same valid (agree trivial) asserts⟩

/-- The classes that a call was not about keep their entries. -/
theorem edit_others (equiv : Equivalence fun a b => s.map.equals a b = true) (op : Op)
    (apart : ¬op.Concerns s result k) :
    lookup s.map.equals Entry.key k (op.edit s result) =
      lookup s.map.equals Entry.key k s.entries := by
  have symm : ∀ {a b}, ¬s.map.equals a b → ¬s.map.equals b a := fun other equal =>
    other (equiv.symm equal)
  cases op with
  | set key valueSize =>
    rw [Op.edit]
    split
    case isTrue => rfl
    case isFalse given =>
      have other : ¬s.map.equals key k := fun equal => apart ⟨given, equal⟩
      have first : lookup s.map.equals Entry.key k
          (⟨key, result.value, valueSize⟩ :: without s.map.equals Entry.key key s.entries) = _ :=
        lookup_cons_other (symm other)
      rw [first, lookup_without equiv other]
  | getOrAdd key valueSize =>
    rw [Op.edit]
    split
    case isTrue => rfl
    case isFalse given =>
      obtain ⟨absent, nonnull⟩ := not_or.mp given
      have other : ¬s.map.equals key k := fun equal => apart ⟨absent, nonnull, equal⟩
      have first : lookup s.map.equals Entry.key k (⟨key, result.value, valueSize⟩ :: s.entries) = _ :=
        lookup_cons_other (symm other)
      rw [first]
  | remove key => exact lookup_without equiv apart
  | clear => exact absurd trivial apart
  | removeElem i =>
    refine lookup_filter fun x member equal => ?_
    rw [Option.all_eq_true]
    intro iter there
    refine bne_iff_ne.mpr fun cell => apart ⟨iter, there, x, member, cell, equiv.symm equal⟩
  | get _ | getAll _ | next _ | write _ _ _ => rfl

theorem step_effect (servesB : Serves P B bo ok limit) (serves : Serves P E eo ok limit)
    (inv : Inv P ok bo eo f equals s) (agree : op.Writes → Compatible f equals)
    (stepped : step P B E limit s op = some s') :
    op.Asserts P limit s ∧ ∃ result, (call P B E s op).map Prod.fst = some result ∧
      Effect P ok bo eo f equals s op result s' := by
  rw [step] at stepped
  split at stepped
  case isTrue asserts =>
    obtain ⟨result, p', w', iters, called, effect⟩ :=
      call_effect servesB serves inv op agree asserts
    rw [called] at stepped ⊢
    cases stepped
    exact ⟨asserts, result, rfl, effect⟩
  case isFalse => cases stepped

end Ratlib.Rmap
