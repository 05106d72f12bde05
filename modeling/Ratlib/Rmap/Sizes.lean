import Ratlib.Alloc.Requests
import Ratlib.Rmap.Correctness

/-! The sizes of elements. The insertions ask for `ELEM_SIZE` as it comes out, where
`rmap_elemAllocSize` asserts that it does not wrap. -/
namespace Ratlib.Rmap

open Hash

variable {P : Platform} {σ : Type u} {ι : Type v} {B E : Ralc σ} {ok : World σ → Blocks ι → Prop}
  {bo eo : ι} {f : List UInt8 → UInt32} {equals : List UInt8 → List UInt8 → Bool} {p p' : RMap}
  {L : Blocks ι} {chains : Nat → List Elem} {m : Mem} {value : UInt32} {key : List UInt8} {e : Elem}

section Sizes

def NoWrap (P : Platform) (keySize valueSize : Nat) : Prop :=
  keySize ≤ P.sizeMax - (P.alignment - 1) ∧ valueSize ≤ P.sizeMax - (P.alignment - 1) ∧
    P.ratAlign (sizeofHeader P) + P.ratAlign keySize + P.ratAlign valueSize ≤ P.sizeMax

instance (keySize valueSize : Nat) : Decidable (NoWrap P keySize valueSize) :=
  inferInstanceAs (Decidable (_ ∧ _ ∧ _))

theorem NoWrap.asserts (fits : NoWrap P length valueSize) (small : elemSize P length valueSize ≤ limit) :
    SizeAsserts P limit length valueSize := by
  obtain ⟨keys, values, whole⟩ := fits
  have asserts : SizeAsserts P P.sizeMax length valueSize := ⟨keys, values, whole, whole⟩
  rw [elemSize_eq asserts] at small
  exact ⟨keys, values, whole, small⟩

theorem elemSize_dvd (length valueSize : Nat) : P.alignment ∣ elemSize P length valueSize := by
  have wrapped : ∀ {a b}, P.alignment ∣ a → P.alignment ∣ b → P.alignment ∣ P.add a b := by
    intro a b left right
    rw [Platform.add, Platform.wrap, ← P.sizeMax_succ]
    exact (Nat.dvd_mod_iff P.alignment_dvd).mpr (Nat.dvd_add left right)
  exact wrapped (wrapped (P.ratAlign_dvd _) (P.ratAlign_dvd _)) (P.ratAlign_dvd _)

/-- A size that cannot be rounded is larger than every multiple of the alignment. -/
theorem elemSize_room (length valueSize : Nat) :
    elemSize P length valueSize ≤ P.sizeMax - (P.alignment - 1) := by
  have := Platform.aligned_room (P := P) (elemSize_dvd length valueSize) (Platform.wrap_le _)
  omega

/-- However often the sums wrap, they wrap once for all. -/
theorem elemSize_mod (P : Platform) (length valueSize : Nat) :
    elemSize P length valueSize = (headerSize P + P.ratAlign length + P.ratAlign valueSize) %
      (P.sizeMax + 1) := by
  rw [elemSize, Platform.add, Platform.add, Platform.wrap, Platform.wrap, Nat.mod_add_mod,
    ← P.sizeMax_succ]
  rfl

theorem headerSize_lt : headerSize P < sizeofHeader P + P.alignment := by
  apply Platform.ratAlign_lt
  have := P.sizeT_cases
  have := P.alignment_le
  have := P.sizeMax_ge
  simp only [sizeofHeader]
  omega

/-- The size that is asked for is large enough if and only if nothing wraps. -/
theorem elemSize_enough (keys : length ≤ P.sizeMax) (values : valueSize ≤ P.sizeMax) :
    sizeofHeader P + length + valueSize ≤ elemSize P length valueSize ↔ NoWrap P length valueSize := by
  have := P.alignment_pos
  have := P.alignment_le
  have := P.sizeMax_ge
  have room := elemSize_room (P := P) length valueSize
  constructor
  · intro enough
    have lengths : P.ratAlign length < length + P.alignment := Platform.ratAlign_lt (by omega)
    have sizes : P.ratAlign valueSize < valueSize + P.alignment := Platform.ratAlign_lt (by omega)
    have header := headerSize_lt (P := P)
    refine ⟨by omega, by omega, ?_⟩
    by_contra wraps
    change ¬headerSize P + _ + _ ≤ _ at wraps
    have below := Nat.mod_le
      (headerSize P + P.ratAlign length + P.ratAlign valueSize - (P.sizeMax + 1)) (P.sizeMax + 1)
    rw [elemSize_mod, Nat.mod_eq_sub_mod (by omega)] at enough
    omega
  · intro fits
    have asserts : SizeAsserts P P.sizeMax length valueSize := fits.asserts (Platform.wrap_le _)
    have same := elemSize_eq asserts
    have header := sizeofHeader_le (P := P)
    have lengths : length ≤ P.ratAlign length := Platform.le_ratAlign (by have := fits.1; omega)
    have sizes : valueSize ≤ P.ratAlign valueSize := Platform.le_ratAlign (by have := fits.2.1; omega)
    omega

end Sizes

section Room

/-- The block that was asked for has room for the header, the key and the value, apart
from each other and aligned, and the key is there. -/
structure Roomy (P : Platform) (key : List UInt8) (valueSize : Nat) (request : Request) (m : Mem)
    (q : Nat) : Prop where
  size : sizeofHeader P + key.length + valueSize ≤ request.size
  header : request.reply.ptr + sizeofHeader P ≤ elemKey P request.reply.ptr
  apart : elemKey P request.reply.ptr + key.length ≤ q
  inside : q + valueSize ≤ request.reply.ptr + request.size
  key_aligned : P.alignment ∣ elemKey P request.reply.ptr - request.reply.ptr
  value_aligned : P.alignment ∣ q - request.reply.ptr
  stored : storedKey P m request.reply.ptr = key

theorem Stored.roomy (stored : Stored P m value e) (fits : NoWrap P e.key.length e.valueSize) (out : Option Nat) :
    Roomy P e.key e.valueSize ⟨elemSize P e.key.length e.valueSize, ⟨e.addr, out⟩⟩ m (e.cell P) := by
  have asserts : SizeAsserts P P.sizeMax e.key.length e.valueSize := fits.asserts (Platform.wrap_le _)
  have extent := asserts.extent_le
  have lengths := asserts.fits.key_le
  have start := elemKey_eq (P := P) e.addr
  have cell : e.cell P = e.addr + (headerSize P + P.ratAlign e.key.length) := rfl
  rw [Elem.extent] at extent
  refine ⟨(elemSize_enough (by have := fits.1; omega) (by have := fits.2.1; omega)).mpr fits, ?_, ?_, ?_,
    ?_, ?_, stored.storedKey⟩
  · have := sizeofHeader_le (P := P)
    dsimp only
    omega
  · dsimp only
    omega
  · dsimp only
    omega
  · dsimp only
    rw [start, Nat.add_sub_cancel_left]
    exact P.ratAlign_dvd _
  · dsimp only
    rw [cell, Nat.add_sub_cancel_left]
    exact Nat.dvd_add (P.ratAlign_dvd _) (P.ratAlign_dvd _)

/-- The words that link the chains hold elements, or NULL. -/
theorem Holds.points {w : World σ} (holds : Holds P ok bo eo f equals p w L chains)
    (cell : IsCell P p.buckets p.bucketCount (members p.bucketCount chains) c) (some : P.get w.mem c ≠ 0) :
    ∃ x ∈ members p.bucketCount chains, x.addr = P.get w.mem c := by
  have first : ∀ i < p.bucketCount, ∀ es : List Elem, (∀ x ∈ es, x ∈ chains i) →
      P.get w.mem c = entry 0 (es.map Elem.addr) →
      ∃ x ∈ members p.bucketCount chains, x.addr = P.get w.mem c := by
    intro i inside es known same
    cases es with
    | nil => exact absurd same some
    | cons x es =>
      exact ⟨x, mem_members.mpr ⟨i, inside, known x List.mem_cons_self⟩, same.symm⟩
  rcases cell with ⟨i, inside, rfl⟩ | ⟨e, member, rfl⟩
  · exact first i inside _ (fun _ listed => listed) (holds.table.linked i inside).entry
  · obtain ⟨i, inside, here⟩ := mem_members.mp member
    obtain ⟨xs, ys, split⟩ := List.append_of_mem here
    refine first i inside ys (fun x listed => ?_) (holds.before inside split).2
    rw [split]
    exact List.mem_append_right _ (List.mem_cons_of_mem e listed)

/-- A call that gave out a value asked for its element, and turned `cell` to it. -/
structure Requested (P : Platform) (keySize valueSize cell : Nat) (result : Nat × RMap × World (σ × Request)) :
    Prop where
  size : result.2.2.state.2.size = elemSize P keySize valueSize
  nonnull : result.2.2.state.2.reply.ptr ≠ 0
  value : result.1 = elemValue P result.2.2.mem result.2.2.state.2.reply.ptr
  turned : ∃ m, result.2.2.mem = P.put m cell result.2.2.state.2.reply.ptr

theorem requested {state : σ × Request} {reply : Reply}
    (hand : state.2 = ⟨elemSize P length valueSize, reply⟩) (some : reply.ptr ≠ 0) :
    Requested P length valueSize cell
      (elemValue P (P.put m cell reply.ptr) reply.ptr, p, ⟨state, P.put m cell reply.ptr⟩) := by
  constructor
  case size => exact congrArg Request.size hand
  case nonnull => rwa [hand]
  case value => rw [hand]
  case turned => exact ⟨m, by rw [hand]⟩

/-- The element that was asked for is the one whose value was given out. -/
theorem Requested.roomy {w : World (σ × Request)} (serves : Serves P E eo ok limit)
    (requested : Requested P e.key.length e.valueSize cell (q, p, w))
    (holds : Holds P (InHand P ok) bo eo f equals p w L chains)
    (fits : NoWrap P e.key.length e.valueSize) (member : e ∈ members p.bucketCount chains)
    (value : e.cell P = q)
    (linked : IsCell P p.buckets p.bucketCount (members p.bucketCount chains) cell) :
    Roomy P e.key e.valueSize w.state.2 w.mem q := by
  have separate := serves.separate holds.ok.1
  obtain ⟨m, turned⟩ := requested.turned
  have points : P.get w.mem cell = w.state.2.reply.ptr := by
    rw [show w.mem = _ from turned]
    exact Platform.get_put holds.ok.2
  obtain ⟨x, member', addr⟩ := holds.points linked (points ▸ requested.nonnull)
  have stored := holds.table.stored x member'
  have cell' : q = x.cell P := by
    rw [← stored.cell (holds.housed.fits x member'), addr, points]
    exact requested.value
  have same := holds.housed.cell_inj separate member' member (cell'.symm.trans value.symm)
  have roomy := (holds.table.stored e member).roomy fits w.state.2.reply.out
  have hand : w.state.2 = ⟨elemSize P e.key.length e.valueSize, ⟨e.addr, w.state.2.reply.out⟩⟩ := by
    rw [← same, addr, points, ← requested.size]
  rwa [hand, ← value]

end Room

section Calls
variable {w w' : World (σ × Request)}

theorem addElem_requested (result : addElem P (recorded E) p w value key valueSize = (q, p', w'))
    (given : q ≠ 0) : Requested P key.length valueSize
      (bucket P p'.buckets (bucketIndex P value p'.bucketCount)) (q, p', w') := by
  simp only [addElem] at result
  generalize request : ralcAlloc (recorded E) w (elemSize P key.length valueSize) = attempt at result
  obtain ⟨reply, w₁⟩ := attempt
  dsimp only at result
  split at result
  case isTrue =>
    cases result
    exact absurd rfl given
  case isFalse some =>
    have hand := hand_alloc request some
    cases result
    exact requested hand some

theorem add_requested (result : add P (recorded B) (recorded E) p w value key valueSize = some (q, p', w'))
    (given : q ≠ 0) : Requested P key.length valueSize
      (bucket P p'.buckets (bucketIndex P value p'.bucketCount)) (q, p', w') := by
  rw [add] at result
  split at result
  case isTrue =>
    obtain ⟨⟨success, p₁, w₁⟩, -, added⟩ := Option.map_eq_some_iff.mp result
    cases success with
    | true => exact addElem_requested added given
    | false =>
      cases added
      exact absurd rfl given
  case isFalse =>
    exact addElem_requested (Option.some.inj result) given

theorem setElem_requested
    (result : setElem P (recorded E) p w value key valueSize prevNext = (q, p', w')) (given : q ≠ 0) :
    Requested P key.length valueSize prevNext (q, p', w') := by
  simp only [setElem] at result
  generalize resize : ralcRealloc (recorded E) w (P.get w.mem prevNext)
    (elemSize P key.length valueSize) = attempt at result
  obtain ⟨resized, w₁⟩ := attempt
  dsimp only at result
  split at result
  case isTrue moved =>
    have hand := hand_realloc resize moved
    cases result
    exact requested hand moved
  case isFalse =>
    generalize request : ralcAlloc (recorded E) w₁ (elemSize P key.length valueSize) = attempt at result
    obtain ⟨fresh, w₂⟩ := attempt
    dsimp only at result
    split at result
    case isTrue =>
      cases result
      exact absurd rfl given
    case isFalse some =>
      have hand := hand_alloc request some
      cases result
      exact requested hand some

section Placed
variable (servesB : Serves P B bo ok limit) (serves : Serves P E eo ok limit)
  (holds : Holds P (InHand P ok) bo eo f equals p w L chains)
  (fits : NoWrap P key.length valueSize) (small : elemSize P key.length valueSize ≤ limit)

include serves in
theorem Placed.roomy (placed : Placed P (InHand P ok) bo eo f equals p w chains old key valueSize (q, p', w'))
    (given : q ≠ 0) (fits : NoWrap P key.length valueSize)
    (requested : Requested P key.length valueSize cell (q, p', w'))
    (linked : ∀ L' chains' e rest, Holds P (InHand P ok) bo eo f equals p' w' L' chains' →
      (members p.bucketCount chains).Perm (old.toList ++ rest) →
      (members p'.bucketCount chains').Perm (e :: rest) →
      IsCell P p'.buckets p'.bucketCount (members p'.bucketCount chains') cell) :
    Roomy P key valueSize w'.state.2 w'.mem q := by
  rw [Placed, if_neg given] at placed
  obtain ⟨e, rfl, rfl, value, L', chains', rest, holds, before, behind, -⟩ := placed
  exact requested.roomy serves holds fits (behind.mem_iff.mpr List.mem_cons_self) value
    (linked L' chains' e rest holds before behind)

include servesB serves holds fits small in
theorem add_roomy (grow : GrowAsserts P limit p)
    (absent : Compatible f equals → ∀ x ∈ members p.bucketCount chains, ¬equals key x.key)
    (result : add P (recorded B) (recorded E) p w (f key) key valueSize = some (q, p', w')) (given : q ≠ 0) :
    Roomy P key valueSize w'.state.2 w'.mem q := by
  obtain ⟨_, added, placed, -⟩ := add_cases (recorded_serves servesB) (recorded_serves serves) holds
    (fits.asserts small) grow absent
  cases added.symm.trans result
  refine placed.roomy serves given fits (add_requested result given) fun L' chains' e rest holds' _ behind => ?_
  have nonempty : p'.bucketCount ≠ 0 := by
    intro none
    rw [none] at behind
    exact absurd behind.symm.eq_nil (List.cons_ne_nil _ _)
  exact Or.inl ⟨_, bucketIndex_lt (holds'.count_le (recorded_serves serves)) holds'.filed.size nonempty _, rfl⟩

include serves holds fits small in
theorem setElem_roomy (inside : i < p.bucketCount) (split : chains i = xs ++ [e] ++ ys)
    (same : f key = f e.key) (equal : equals key e.key)
    (result : setElem P (recorded E) p w (f key) key valueSize
      (exit (bucket P p.buckets i) (xs.map Elem.addr)) = (q, p', w')) (given : q ≠ 0) :
    Roomy P key valueSize w'.state.2 w'.mem q := by
  obtain ⟨placed, stays⟩ := setElem_cases (recorded_serves serves) holds inside split same equal
    (fits.asserts small)
  rw [result] at placed stays
  obtain rfl : p' = p := stays
  refine placed.roomy serves given fits (setElem_requested result given)
    fun L' chains' e' rest _ before behind => ?_
  have taken : (members p'.bucketCount chains).Perm (e :: _) := members_taken inside split
  have others := (taken.symm.trans before).cons_inv
  rcases exit_cell (P := P) p'.buckets chains inside xs ys with bucket | ⟨x, member, cell⟩
  · exact Or.inl bucket
  · refine Or.inr ⟨x, behind.mem_iff.mpr (List.mem_cons_of_mem e' ?_), cell⟩
    exact others.mem_iff.mp member

include servesB serves holds fits small in
theorem rmapSet_roomy (grow : GrowAsserts P limit p)
    (result : rmapSet P (recorded B) (recorded E) p w key valueSize = some (q, p', w')) (given : q ≠ 0) :
    Roomy P key valueSize w'.state.2 w'.mem q := by
  rw [rmapSet, holds.hashes] at result
  rcases find_cases (recorded_serves serves) holds key with
    ⟨absent, found⟩ | ⟨i, xs, e, ys, inside, split, hash, equal, found⟩
  · rw [found] at result
    exact add_roomy servesB serves holds fits small grow absent result given
  · rw [found] at result
    exact setElem_roomy serves holds fits small inside (by simpa using split) hash equal
      (Option.some.inj result) given

include servesB serves holds fits small in
theorem rmapGetOrAdd_roomy (grow : GrowAsserts P limit p)
    (result : rmapGetOrAdd P (recorded B) (recorded E) p w key valueSize = some (false, q, p', w'))
    (given : q ≠ 0) : Roomy P key valueSize w'.state.2 w'.mem q := by
  rw [rmapGetOrAdd, holds.hashes] at result
  rcases find_cases (recorded_serves serves) holds key with
    ⟨absent, found⟩ | ⟨i, xs, e, ys, -, -, -, -, found⟩
  · rw [found] at result
    obtain ⟨added, result, same⟩ := Option.map_eq_some_iff.mp result
    cases same
    exact add_roomy servesB serves holds fits small grow absent result given
  · rw [found] at result
    cases result

end Placed

/-- What either call asked for, whatever the sizes. -/
theorem rmapSet_size (result : rmapSet P (recorded B) (recorded E) p w key valueSize = some (q, p', w'))
    (given : q ≠ 0) : w'.state.2.size = elemSize P key.length valueSize := by
  obtain ⟨found, -, result⟩ := Option.bind_eq_some_iff.mp result
  cases found with
  | some prevNext => exact (setElem_requested (Option.some.inj result) given).size
  | none => exact (add_requested result given).size

theorem rmapGetOrAdd_size
    (result : rmapGetOrAdd P (recorded B) (recorded E) p w key valueSize = some (false, q, p', w'))
    (given : q ≠ 0) : w'.state.2.size = elemSize P key.length valueSize := by
  obtain ⟨found, -, result⟩ := Option.bind_eq_some_iff.mp result
  cases found with
  | some prevNext => cases result
  | none =>
    obtain ⟨added, result, same⟩ := Option.map_eq_some_iff.mp result
    cases same
    exact (add_requested result given).size

end Calls

variable {hash : Option (List UInt8 → RHash → UInt32)}
  {same : Option (List UInt8 → List UInt8 → Bool)} {key0 key1 : UInt32}

/-- After any run, an element that `rmap_set` or `rmap_getOrAdd` gave a value of has room
for its header, its key and its value if and only if no size wraps. -/
theorem elem_roomy_iff {w : World σ} (servesB : Serves P B bo ok limit) (serves : Serves P E eo ok limit)
    (before : ok w L) (agree : (∃ op ∈ ops, op.Writes) →
      Compatible (getHashVal (rmapInit P key0 key1 hash same)) (rmapInit P key0 key1 hash same).equals)
    {s : State (σ × Request)}
    (ran : run (step P (recorded B) (recorded E) limit)
      (start P key0 key1 hash same ⟨(w.state, ⟨0, .null⟩), w.mem⟩) ops = some s)
    (keys : key.length ≤ P.sizeMax) (values : valueSize ≤ P.sizeMax)
    (small : elemSize P key.length valueSize ≤ limit) (grow : GrowAsserts P limit s.map) :
    (∀ q p' w', rmapSet P (recorded B) (recorded E) s.map s.world key valueSize = some (q, p', w') →
      q ≠ 0 → (Roomy P key valueSize w'.state.2 w'.mem q ↔ NoWrap P key.length valueSize)) ∧
    ∀ q p' w', rmapGetOrAdd P (recorded B) (recorded E) s.map s.world key valueSize =
        some (false, q, p', w') →
      q ≠ 0 → (Roomy P key valueSize w'.state.2 w'.mem q ↔ NoWrap P key.length valueSize) := by
  have initial : InHand P (Labelled ok bo eo) ⟨(w.state, ⟨0, .null⟩), w.mem⟩ (L.relabel Sum.inl) :=
    ⟨labelled_start before, Nat.zero_le _⟩
  have servesB : Serves P B _ (Labelled ok bo eo) limit := buckets_serves servesB
  have serves : Serves P E _ (Labelled ok bo eo) limit := elements_serves serves
  obtain ⟨L', chains, holds, -⟩ := run_inv (recorded_serves servesB) (recorded_serves serves)
    (inv_start initial (owns_none L)) agree ran
  have enough := elemSize_enough (P := P) keys values
  refine ⟨fun q p' w' result given => ⟨fun roomy => enough.mp ?_, fun fits => ?_⟩,
    fun q p' w' result given => ⟨fun roomy => enough.mp ?_, fun fits => ?_⟩⟩
  · rw [← rmapSet_size result given]
    exact roomy.size
  · exact rmapSet_roomy servesB serves holds fits small grow result given
  · rw [← rmapGetOrAdd_size result given]
    exact roomy.size
  · exact rmapGetOrAdd_roomy servesB serves holds fits small grow result given

def kibStart : State (Gen.RalcGen × Request) :=
  start .lp64 1 2 none none ⟨(Gen.kib.state, ⟨0, .null⟩), Gen.kib.mem⟩

theorem elem_roomy_iff_lp64 : ∃ s q p' w', run (step .lp64 (recorded (Gen.ralcGen .lp64))
      (recorded (Gen.ralcGen .lp64)) 4096) kibStart [.set [1] 4, .getOrAdd [2, 3] 8] = some s ∧
    rmapSet .lp64 (recorded (Gen.ralcGen .lp64)) (recorded (Gen.ralcGen .lp64)) s.map s.world [1] 40 =
      some (q, p', w') ∧ Roomy .lp64 [1] 40 w'.state.2 w'.mem q := by
  have facts : (run (step .lp64 (recorded (Gen.ralcGen .lp64)) (recorded (Gen.ralcGen .lp64)) 4096)
      kibStart [.set [1] 4, .getOrAdd [2, 3] 8]).bind (fun s =>
        (rmapSet .lp64 (recorded (Gen.ralcGen .lp64)) (recorded (Gen.ralcGen .lp64)) s.map s.world
          [1] 40).map fun result => (decide (GrowAsserts .lp64 4096 s.map), result.1)) =
      some (true, 4368) := by decide +kernel
  obtain ⟨s, ran, called⟩ := Option.bind_eq_some_iff.mp facts
  obtain ⟨⟨q, p', w'⟩, result, values⟩ := Option.map_eq_some_iff.mp called
  obtain ⟨grow, ptr⟩ := Prod.mk.inj values
  refine ⟨s, q, p', w', ran, result, ?_⟩
  have keys : [(1 : UInt8)].length ≤ Platform.lp64.sizeMax := by decide
  have roomy_iff := (elem_roomy_iff (Gen.kib_serves true) (Gen.kib_serves false) Gen.kib_ok
    (fun _ => compatible_default _) ran keys (show 40 ≤ _ by decide) (by decide)
      (of_decide_eq_true grow)).1
  exact (roomy_iff q p' w' result (ne_of_eq_of_ne ptr (by decide))).mpr (by decide)

/-- A value of 2^64 - 1 bytes gets none: the block ends where the value begins. -/
theorem elem_loses_value : ∃ q p' w', rmapSet .lp64 (recorded (Gen.ralcGen .lp64))
      (recorded (Gen.ralcGen .lp64)) kibStart.map kibStart.world [1] 18446744073709551615 =
        some (q, p', w') ∧ q ≠ 0 ∧ w'.state.2.size = 48 ∧ q = w'.state.2.reply.ptr + 48 ∧
      ¬Roomy .lp64 [1] 18446744073709551615 w'.state.2 w'.mem q := by
  have facts : (rmapSet .lp64 (recorded (Gen.ralcGen .lp64)) (recorded (Gen.ralcGen .lp64))
      kibStart.map kibStart.world [1] 18446744073709551615).map (fun (q, _, w') =>
        (q, w'.state.2.size, w'.state.2.reply.ptr)) = some (4208, 48, 4160) := by decide +kernel
  obtain ⟨⟨q, p', w'⟩, result, values⟩ := Option.map_eq_some_iff.mp facts
  obtain ⟨value, rest⟩ := Prod.mk.inj values
  obtain ⟨size, ptr⟩ := Prod.mk.inj rest
  refine ⟨q, p', w', result, ne_of_eq_of_ne value (by decide), size, by rw [value, ptr], fun roomy => ?_⟩
  have room := roomy.size
  rw [size] at room
  omega

end Ratlib.Rmap
