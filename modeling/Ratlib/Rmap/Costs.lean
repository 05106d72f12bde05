import Ratlib.Library.Amortized
import Ratlib.Rmap.Correctness

/-! What growing costs a hash map. The rounds of the inner loop of `rehash` are counted
along its own recursion; a table that doubles when it is three quarters full moves each
element that was ever added no more than twice. -/
namespace Ratlib.Rmap

section Rounds
variable (P : Platform) {σ : Type u} (B : Ralc σ)

def relinkChainRounds (newBuckets newBucketCount : Nat) : Nat → Mem → Nat → Nat
  | 0, _, _ => 0
  | fuel + 1, m, e =>
    if e = 0 then 0
    else
      let after := next P m e
      let cell := bucket P newBuckets (bucketIndex P (hashVal P m e) newBucketCount)
      let m := P.put m e (P.get m cell)
      let m := P.put m cell e
      relinkChainRounds newBuckets newBucketCount fuel m after + 1

def relinkBucketsRounds (p : RMap) (newBuckets newBucketCount : Nat) : Nat → Nat → Mem → Nat
  | 0, _, _ => 0
  | n + 1, i, m =>
    let e := P.get m (bucket P p.buckets i)
    relinkChainRounds P newBuckets newBucketCount (p.count + 1) m e +
      ((relinkChain P newBuckets newBucketCount (p.count + 1) m e).map
        (relinkBucketsRounds p newBuckets newBucketCount n (i + 1))).getD 0

def rehashRounds (p : RMap) (w : World σ) (newBucketCount : Nat) : Nat :=
  let newBucketsSize := P.mul P.sizeT newBucketCount
  let (newBuckets, w) := ralcAlloc B w newBucketsSize
  if newBuckets.ptr = 0 then 0
  else if p.bucketCount ≠ 0 then
    relinkBucketsRounds P p newBuckets.ptr newBucketCount p.bucketCount 0
      (w.mem.fill newBuckets.ptr newBucketsSize 0)
  else 0

def addRounds (p : RMap) (w : World σ) : Nat :=
  if p.count ≥ p.bucketCount / 2 + p.bucketCount / 4 then
    rehashRounds P B p w (if p.bucketCount ≠ 0 then P.mul p.bucketCount 2 else initBucketCount)
  else 0

/-- The elements that a call moves to new chains. Only insertions of absent keys call `add`. -/
def Op.rounds (s : State σ) : Op → Nat
  | .set key _ | .getOrAdd key _ =>
    if find P s.map s.world.mem key = some none then addRounds P B s.map s.world else 0
  | .get _ | .remove _ | .clear | .getAll _ | .next _ | .removeElem _ | .write .. => 0

end Rounds

variable {P : Platform} {σ : Type u} {ι : Type v} {A B E : Ralc σ} {ok : World σ → Blocks ι → Prop}
  {owner bo eo : ι} {f : List UInt8 → UInt32} {equals : List UInt8 → List UInt8 → Bool}
  {p p' : RMap} {w w' : World σ} {L L' : Blocks ι} {chains cs : Nat → List Elem}
  {m m' : Mem} {n i : Nat} {es rest : List Elem} {s s' : State σ}

/-- A loop that ended had as many rounds to go, and goes no further with more. -/
theorem relinkChain_rounds (done : relinkChain P nb n' fuel m cur = some m') (more : fuel ≤ fuel') :
    relinkChainRounds P nb n' fuel' m cur < fuel := by
  induction fuel generalizing fuel' m cur with
  | zero => cases done
  | succ fuel ih =>
    obtain ⟨fuel', rfl⟩ : ∃ k, fuel' = k + 1 := ⟨fuel' - 1, by omega⟩
    rw [relinkChain] at done
    rw [relinkChainRounds]
    split at done
    case isTrue null =>
      rw [if_pos null]
      exact Nat.succ_pos fuel
    case isFalse some =>
      rw [if_neg some]
      have later := ih done (Nat.le_of_succ_le_succ more)
      dsimp only
      omega

/-- The rounds of the last chain come last. -/
theorem relinkBucketsRounds_succ (p : RMap) (nb n' n i : Nat) (m : Mem) :
    relinkBucketsRounds P p nb n' (n + 1) i m = relinkBucketsRounds P p nb n' n i m +
      ((relinkBuckets P p nb n' n i m).map fun m =>
        relinkChainRounds P nb n' (p.count + 1) m (P.get m (bucket P p.buckets (i + n)))).getD 0 := by
  induction n generalizing i m with
  | zero =>
    rw [relinkBucketsRounds, relinkBucketsRounds, relinkBuckets, Nat.add_zero, Nat.zero_add]
    cases relinkChain P nb n' (p.count + 1) m (P.get m (bucket P p.buckets i)) <;> rfl
  | succ n ih =>
    rw [relinkBucketsRounds, relinkBucketsRounds, relinkBuckets]
    cases relinkChain P nb n' (p.count + 1) m (P.get m (bucket P p.buckets i)) with
    | none => rfl
    | some m₁ =>
      simp only [Option.map_some, Option.getD_some, Option.bind_some]
      rw [ih, Nat.add_assoc, Nat.add_assoc, Nat.add_comm 1 n]

/-- Both loops of `rehash` make one round for each element. -/
theorem relinkBuckets_rounds {nb n' : Nat} (new : Housed P L bo eo nb n' es)
    (old : Housed P L bo eo p.buckets N es) (different : nb ≠ p.buckets) (separate : L.Separate)
    (bounds : ∀ e ∈ es, e.addr ≠ 0 ∧ e.addr ≤ P.sizeMax) (index : ∀ e ∈ es, place P f n' e < n')
    (all : es = members N chains) (within : n ≤ N)
    (linked : ∀ k < N, Chain (P.get m) 0 (bucket P p.buckets k) ((chains k).map Elem.addr))
    (stored : ∀ e ∈ es, Stored P m (f e.key) e) (empty : ∀ j < n', P.get m (bucket P nb j) = 0)
    (enough : ∀ k < N, (chains k).length ≤ p.count) :
    relinkBucketsRounds P p nb n' n 0 m ≤ (members n chains).length := by
  have sub : ∀ k < N, ∀ x ∈ chains k, x ∈ es := fun k low x member =>
    all ▸ mem_members.mpr ⟨k, low, member⟩
  induction n with
  | zero => exact Nat.le_refl 0
  | succ n ih =>
    have earlier := ih (by omega)
    have here : n < N := by omega
    have range : (List.range' 0 n).flatMap chains = members n chains := by
      rw [← List.range_eq_range', members]
    have split : members (n + 1) chains = members n chains ++ chains n := by
      rw [members, List.range_succ, List.flatMap_append, List.flatMap_singleton, members]
    have whole : ∀ x ∈ members n chains, x ∈ es := by
      intro x member
      obtain ⟨k, low, listed⟩ := mem_members.mp member
      exact sub k (by omega) x listed
    obtain ⟨more, rfl⟩ := Nat.exists_eq_add_of_le within
    obtain ⟨after, cut⟩ := members_add (n + 1) more chains
    have nodup := new.nodup
    rw [all, cut, split, List.map_append, List.map_append, List.nodup_append', List.nodup_append'] at nodup
    obtain ⟨⟨nodup, nodup', disjoint⟩, -⟩ := nodup
    have empty' : ∀ j < n', Chain (P.get m) 0 (bucket P nb j) (([] : List Elem).map Elem.addr) := empty
    obtain ⟨m₁, result, relinked, moved⟩ := relinkBuckets_cases (i := 0) (n := n) new old different separate
      bounds index sub (by omega) (by rwa [range]) (fun k _ high => linked k (by omega))
      (fun e member => stored e (whole e (range ▸ member))) (by simp) (by simp) empty' enough
    rw [range] at relinked moved
    have others : ∀ x ∈ chains n, ∀ e ∈ members n chains, x.addr ≠ e.addr :=
      fun x listed e member same => disjoint (List.mem_map_of_mem member) (same ▸ List.mem_map_of_mem listed)
    have kept := relinked.chain new old different separate whole here (sub n here) others (linked n here)
    have stored₁ : ∀ e ∈ chains n, Stored P m₁ (f e.key) e := fun e listed =>
      (stored e (sub n here e listed)).congr (new.fits e (sub n here e listed))
        (relinked.body new separate whole (sub n here e listed))
    obtain ⟨m₂, last, -⟩ := relinkChain_cases new separate bounds
      (fun e listed => index e (sub n here e listed)) (sub n here) nodup' kept stored₁
      (fun j low x listed => whole x ((mem_spread listed).resolve_right List.not_mem_nil))
      (fun j low x listed e member => (others e member x ((mem_spread listed).resolve_right List.not_mem_nil)).symm)
      moved (show (chains n).length < (chains n).length + 1 from Nat.lt_succ_self _)
    have fuel : (chains n).length + 1 ≤ p.count + 1 := Nat.add_le_add_right (enough n here) 1
    have rounds := relinkChain_rounds last fuel
    rw [relinkBucketsRounds_succ, result, split, List.length_append, Nat.zero_add]
    simp only [Option.map_some, Option.getD_some]
    omega

theorem Holds.relinks_rounds (serves : Serves P B bo ok limit)
    (holds : Holds P ok bo eo f equals p w L chains) (nonempty : p.bucketCount ≠ 0)
    (index : ∀ e, place P f n' e < n') (fresh : L nb = none) (kept : Set.EqOn w.mem w₁.mem L.bytes)
    (filled : ok w₁ (L.grant nb bo actual))
    (housed : Housed P (L.grant nb bo actual) bo eo nb n' (members p.bucketCount chains))
    (empty : ∀ j < n', P.get w₁.mem (bucket P nb j) = 0) :
    relinkBucketsRounds P p nb n' p.bucketCount 0 w₁.mem ≤ p.count := by
  obtain ⟨different, old⟩ := holds.housed.beside nonempty fresh housed
  have table := holds.table.congr holds.housed kept
  have bounds := fun e member => holds.addr_bounds serves (e := e) member
  rw [holds.count]
  exact relinkBuckets_rounds housed old different (serves.separate filled) bounds (fun e _ => index e) rfl
    (Nat.le_refl _) table.linked table.stored empty (fun k low => holds.count ▸ length_bucket_le low chains)

/-- `rehash` moves each element once, or none where it fails. -/
theorem rehash_rounds (serves : Serves P B bo ok limit)
    (holds : Holds P ok bo eo f equals p w L chains) (asserts : GrowAsserts P limit p)
    (full : p.count ≥ p.bucketCount / 2 + p.bucketCount / 4)
    (done : rehash P B p w (grownCount p.bucketCount) = some (success, p', w')) :
    rehashRounds P B p w (grownCount p.bucketCount) ≤ if success then p.count else 0 := by
  obtain ⟨bytes, small⟩ := holds.grown_le serves full
  obtain ⟨k, low, size⟩ := grownCount_size holds.filed.size
  have larger : grownCount p.bucketCount ≠ 0 := size ▸ (Nat.two_pow_pos k).ne'
  have index : ∀ e, place P f (grownCount p.bucketCount) e < grownCount p.bucketCount :=
    fun e => bucketIndex_lt small (Or.inr ⟨k, low, size⟩) larger _
  have granted := serves.alloc holds.ok (asserts full)
  simp only [rehash, rehashRounds, Platform.mul_of_le bytes] at done ⊢
  generalize ralcAlloc B w (P.sizeT * grownCount p.bucketCount) = attempt at granted done ⊢
  obtain ⟨reply, w₁⟩ := attempt
  obtain ⟨same, outcome⟩ := granted
  dsimp only at same outcome done ⊢
  by_cases null : reply.ptr = 0
  · rw [if_pos null]
    exact Nat.zero_le _
  rw [if_neg null] at outcome done ⊢
  obtain ⟨actual, -, room, fresh, granted⟩ := outcome
  generalize reply.ptr = nb at fresh granted done ⊢
  rw [Nat.mul_comm] at room
  obtain ⟨kept, filled, housed, empty⟩ := holds.filled serves same fresh granted room
  by_cases nonempty : p.bucketCount ≠ 0
  · rw [if_pos nonempty] at done ⊢
    obtain ⟨m, -, result⟩ := Option.map_eq_some_iff.mp done
    cases result
    exact holds.relinks_rounds serves nonempty index fresh kept filled housed empty
  · rw [if_neg nonempty]
    exact Nat.zero_le _

theorem addElem_bucketCount (p : RMap) (w : World σ) (value : UInt32) (key : List UInt8) (valueSize : Nat) :
    (addElem P E p w value key valueSize).2.1.bucketCount = p.bucketCount := by
  rw [addElem]
  dsimp only
  split <;> rfl

/-- `add` moves no elements, or those of a full table that it grows. -/
theorem add_rounds (serves : Serves P B bo ok limit)
    (holds : Holds P ok bo eo f equals p w L chains) (asserts : GrowAsserts P limit p)
    (done : add P B E p w value key valueSize = some (result, p', w')) :
    addRounds P B p w = 0 ∨ p.count ≥ p.bucketCount / 2 + p.bucketCount / 4 ∧
      p'.bucketCount = grownCount p.bucketCount ∧ addRounds P B p w ≤ p.count := by
  rw [addRounds]
  rw [add] at done
  by_cases full : p.count ≥ p.bucketCount / 2 + p.bucketCount / 4
  · have larger := holds.newCount_eq serves full
    rw [if_pos full, larger] at done ⊢
    obtain ⟨⟨success, p₁, w₁⟩, rehashed, after⟩ := Option.map_eq_some_iff.mp done
    have rounds := rehash_rounds serves holds asserts full rehashed
    cases success with
    | false => exact .inl (Nat.le_zero.mp rounds)
    | true =>
      obtain ⟨outcome, found, grown⟩ := rehash_cases serves holds asserts full
      cases found.symm.trans rehashed
      have kept := addElem_bucketCount (P := P) (E := E) p₁ w₁ value key valueSize
      dsimp only at after
      rw [if_pos rfl] at after
      rw [after] at kept
      exact .inr ⟨full, kept.trans grown.1, rounds⟩
  · exact .inl (if_neg full)

/-- A call that inserts nothing leaves the table and adds no element, or empties the map. -/
theorem step_settles (serves : Serves P E eo ok limit) (inv : Inv P ok bo eo f equals s) (other : ¬op.Inserts)
    (stepped : step P B E limit s op = some s') :
    s'.map.count ≤ s.map.count ∧ (s'.map.bucketCount = s.map.bucketCount ∨
      s'.map.count = 0 ∧ s'.map.bucketCount = 0) := by
  obtain ⟨L, chains, holds, -⟩ := inv
  rw [step] at stepped
  split at stepped
  case isFalse => cases stepped
  case isTrue asserts =>
    obtain ⟨⟨result, p', w', iters⟩, called, same⟩ := Option.map_eq_some_iff.mp stepped
    cases same
    dsimp only
    cases op with
    | set key valueSize => exact absurd trivial other
    | getOrAdd key valueSize => exact absurd trivial other
    | get key =>
      obtain ⟨value, -, same⟩ := Option.map_eq_some_iff.mp called
      cases same
      exact ⟨Nat.le_refl _, .inl rfl⟩
    | remove key =>
      obtain ⟨old, p₁, w₁, removed, -, ⟨L', chains', rest, holds', before, after, -⟩, table, -⟩ :=
        rmapRemove_cases serves holds key
      rw [call, removed] at called
      cases called
      have count := holds.count
      have count' := holds'.count
      rw [before.length_eq, List.length_append] at count
      rw [after.length_eq, Option.toList_none, List.nil_append] at count'
      exact ⟨by omega, .inl table⟩
    | clear =>
      obtain ⟨⟨p₁, w₁⟩, cleared, same⟩ := Option.map_eq_some_iff.mp called
      cases same
      rw [rmapClear] at cleared
      split at cleared
      case isTrue =>
        cases cleared
        exact ⟨Nat.le_refl _, .inl rfl⟩
      case isFalse =>
        obtain ⟨w₂, -, same⟩ := Option.map_eq_some_iff.mp cleared
        cases same
        exact ⟨Nat.zero_le _, .inr ⟨rfl, rfl⟩⟩
    | getAll i =>
      cases called
      exact ⟨Nat.le_refl _, .inl rfl⟩
    | next i =>
      obtain ⟨iter, -, same⟩ := Option.map_eq_some_iff.mp called
      cases same
      exact ⟨Nat.le_refl _, .inl rfl⟩
    | removeElem i =>
      obtain ⟨iter, -, -, -, some⟩ := asserts
      obtain ⟨iter, -, same⟩ := Option.map_eq_some_iff.mp called
      cases same
      have small := holds.count_le serves
      have load := holds.load
      have less : P.sub s.map.count 1 = s.map.count - 1 := Platform.sub_of_le (by omega) (by omega)
      refine ⟨?_, .inl rfl⟩
      change P.sub s.map.count 1 ≤ s.map.count
      omega
    | write cell i byte =>
      cases called
      exact ⟨Nat.le_refl _, .inl rfl⟩

/-- What an insertion moves, it moves to a table that it grew. -/
theorem rounds_cases (servesB : Serves P B bo ok limit) (inv : Inv P ok bo eo f equals s)
    (stepped : step P B E limit s op = some s') :
    op.rounds P B s = 0 ∨ op.Inserts ∧ s.map.count ≥ s.map.bucketCount / 2 + s.map.bucketCount / 4 ∧
      s'.map.bucketCount = grownCount s.map.bucketCount ∧ op.rounds P B s ≤ s.map.count := by
  obtain ⟨L, chains, holds, -⟩ := inv
  rw [step] at stepped
  split at stepped
  case isFalse => cases stepped
  case isTrue asserts =>
    obtain ⟨⟨result, p', w', iters⟩, called, same⟩ := Option.map_eq_some_iff.mp stepped
    cases same
    dsimp only
    cases op with
    | set key valueSize =>
      obtain ⟨⟨value, p₁, w₁⟩, done, same⟩ := Option.map_eq_some_iff.mp called
      cases same
      rw [Op.rounds]
      split
      case isTrue absent =>
        rw [rmapSet, absent] at done
        exact (add_rounds servesB holds asserts.2 done).imp_right fun grown => ⟨trivial, grown⟩
      case isFalse => exact .inl rfl
    | getOrAdd key valueSize =>
      obtain ⟨⟨flag, value, p₁, w₁⟩, done, same⟩ := Option.map_eq_some_iff.mp called
      cases same
      rw [Op.rounds]
      split
      case isTrue absent =>
        rw [rmapGetOrAdd, absent] at done
        obtain ⟨⟨value, p₁, w₁⟩, added, same⟩ := Option.map_eq_some_iff.mp done
        cases same
        exact (add_rounds servesB holds asserts.2 added).imp_right fun grown => ⟨trivial, grown⟩
      case isFalse => exact .inl rfl
    | get _ | remove _ | clear | getAll _ | next _ | removeElem _ | write _ _ _ => exact .inl rfl

def added (P : Platform) (B E : Ralc σ) (limit : Nat) (s : State σ) (op : Op) : Nat :=
  ((step P B E limit s op).map fun s' => s'.map.count - s.map.count).getD 0

/-- The elements beyond half the load of the table, twice. -/
def saved (s : State σ) : Nat := 2 * s.map.count - (s.map.bucketCount / 2 + s.map.bucketCount / 4)

/-- A growth costs what the elements added since the last one have saved up. -/
theorem step_pays (servesB : Serves P B bo ok limit) (serves : Serves P E eo ok limit)
    (inv : Inv P ok bo eo f equals s) (agree : op.Writes → Compatible f equals)
    (stepped : step P B E limit s op = some s') :
    op.rounds P B s + saved s' ≤ saved s + 2 * added P B E limit s op := by
  obtain ⟨-, result, -, effect⟩ := step_effect servesB serves inv agree stepped
  have rounds := rounds_cases servesB inv stepped
  have gain : added P B E limit s op = s'.map.count - s.map.count := by
    rw [added, stepped]
    rfl
  rw [gain, saved, saved]
  by_cases inserts : op.Inserts
  · obtain ⟨L, chains, holds, -⟩ := inv
    have load := holds.load
    have room := grownCount_room holds.filed.size
    obtain ⟨grew, more, -⟩ := effect.grew inserts
    rcases rounds with none | ⟨-, full, grown, few⟩
    · rcases grew with stays | ⟨-, grown⟩
      · omega
      · rw [grown]
        omega
    · have double : 2 * (s.map.bucketCount / 2 + s.map.bucketCount / 4) ≤
          grownCount s.map.bucketCount / 2 + grownCount s.map.bucketCount / 4 := by
        rw [grownCount]
        split <;> omega
      rw [grown]
      omega
  · obtain ⟨fewer, stays⟩ := step_settles serves inv inserts stepped
    have none := rounds.resolve_right fun grown => inserts grown.1
    rcases stays with stays | ⟨empty, -⟩
    · rw [stays]
      omega
    · omega

/-- A table has its first size, or was three quarters full at half its size. -/
def Filled (P : Platform) (B E : Ralc σ) (limit : Nat) (s₀ : State σ) (ops : List Op) (s : State σ) : Prop :=
  s.map.bucketCount ≤ initBucketCount ∨ ∃ earlier s₁, earlier <+: ops ∧
    run (step P B E limit) s₀ earlier = some s₁ ∧ 3 * s.map.bucketCount ≤ 8 * s₁.map.count

theorem Filled.later (filled : Filled P B E limit s₀ ops s) (op : Op)
    (same : s'.map.bucketCount = s.map.bucketCount) : Filled P B E limit s₀ (ops ++ [op]) s' := by
  refine filled.imp (fun small => same ▸ small) ?_
  rintro ⟨earlier, s₁, before, ran, large⟩
  exact ⟨earlier, s₁, before.trans (List.prefix_append ..), ran, same ▸ large⟩

theorem step_fills (servesB : Serves P B bo ok limit) (serves : Serves P E eo ok limit)
    (inv : Inv P ok bo eo f equals s) (agree : op.Writes → Compatible f equals)
    (ran : run (step P B E limit) s₀ ops = some s) (filled : Filled P B E limit s₀ ops s)
    (stepped : step P B E limit s op = some s') : Filled P B E limit s₀ (ops ++ [op]) s' := by
  obtain ⟨-, result, -, effect⟩ := step_effect servesB serves inv agree stepped
  by_cases inserts : op.Inserts
  · obtain ⟨L, chains, holds, -⟩ := inv
    rcases (effect.grew inserts).1 with stays | ⟨full, grown⟩
    · exact filled.later op stays
    · by_cases none : s.map.bucketCount = 0
      · refine .inl ?_
        rw [grown, none]
        exact Nat.le_refl _
      · refine .inr ⟨ops, s, List.prefix_append .., ran, ?_⟩
        obtain ⟨k, low, size⟩ := holds.filed.size.resolve_left none
        obtain ⟨j, rfl⟩ := Nat.exists_eq_add_of_le low
        rw [Nat.pow_add] at size
        rw [grown, grownCount, if_pos none]
        clear holds
        omega
  · obtain ⟨-, stays⟩ := step_settles serves inv inserts stepped
    rcases stays with stays | ⟨-, empty⟩
    · exact filled.later op stays
    · refine .inl ?_
      rw [empty]
      exact Nat.zero_le _

theorem run_fills (servesB : Serves P B bo ok limit) (serves : Serves P E eo ok limit)
    (initial : Inv P ok bo eo f equals s₀) (small : s₀.map.bucketCount ≤ initBucketCount)
    (agree : (∃ op ∈ ops, op.Writes) → Compatible f equals) (ran : run (step P B E limit) s₀ ops = some s) :
    Filled P B E limit s₀ ops s := by
  refine (run_history (fun ops s => Inv P ok bo eo f equals s ∧ Filled P B E limit s₀ ops s) ?_
    ⟨initial, .inl small⟩ ran).2
  rintro ops s op s' member ran ⟨inv, filled⟩ stepped
  have agree := fun writes => agree ⟨op, member, writes⟩
  have ⟨_, _, _, effect⟩ := step_effect servesB serves inv agree stepped
  exact ⟨effect.inv, step_fills servesB serves inv agree ran filled stepped⟩

variable {key0 key1 : UInt32} {hash : Option (List UInt8 → Hash.RHash → UInt32)}
  {same : Option (List UInt8 → List UInt8 → Bool)}

/-- Over any run, whichever requests fail, `rehash` moves no more than two elements for each
that was added, and the table is of its first size or no larger than eight thirds of the
number of elements that there were once. -/
theorem rmap_amortized (servesB : Serves P B bo ok limit) (serves : Serves P E eo ok limit) (before : ok w L)
    (agree : (∃ op ∈ ops, op.Writes) → Compatible (getHashVal (rmapInit P key0 key1 hash same))
      (rmapInit P key0 key1 hash same).equals)
    (ran : run (step P B E limit) (start P key0 key1 hash same w) ops = some s) :
    totalCost (step P B E limit) (fun s op => op.rounds P B s) (start P key0 key1 hash same w) ops ≤
        2 * totalCost (step P B E limit) (added P B E limit) (start P key0 key1 hash same w) ops ∧
      Filled P B E limit (start P key0 key1 hash same w) ops s := by
  have servesB : Serves P B _ (Labelled ok bo eo) limit := buckets_serves servesB
  have serves : Serves P E _ (Labelled ok bo eo) limit := elements_serves serves
  have initial : Inv P (Labelled ok bo eo) (.inr .buckets) (.inr .elements)
      (getHashVal (rmapInit P key0 key1 hash same)) (rmapInit P key0 key1 hash same).equals
      (start P key0 key1 hash same w) := inv_start (labelled_start before) (owns_none L)
  refine ⟨?_, run_fills servesB serves initial (Nat.zero_le _) agree ran⟩
  have paid := run_potential _ saved (fun s op => 2 * added P B E limit s op)
    (fun s op s' member inv stepped => by
      have ⟨_, _, _, effect⟩ := step_effect servesB serves inv (fun writes => agree ⟨op, member, writes⟩) stepped
      exact effect.inv)
    (fun s op s' member inv stepped =>
      step_pays servesB serves inv (fun writes => agree ⟨op, member, writes⟩) stepped)
    initial ran
  have none : saved (start P key0 key1 hash same w) = 0 := by simp [saved, start, rmapInit]
  rw [totalCost_mul, none] at paid
  omega

/-- Four insertions into a map in a ralcGen: the fourth moves the three others. -/
theorem rmap_amortized_lp64 : ∃ s, run (step .lp64 (Gen.ralcGen .lp64) (Gen.ralcGen .lp64) 4096)
      (start .lp64 1 2 none none Gen.kib) [.set [1] 4, .set [2] 4, .getOrAdd [3] 4, .set [4] 4] = some s ∧
    totalCost (step .lp64 (Gen.ralcGen .lp64) (Gen.ralcGen .lp64) 4096)
        (fun s op => op.rounds .lp64 (Gen.ralcGen .lp64) s) (start .lp64 1 2 none none Gen.kib)
        [.set [1] 4, .set [2] 4, .getOrAdd [3] 4, .set [4] 4] = 3 ∧
    3 ≤ 2 * totalCost (step .lp64 (Gen.ralcGen .lp64) (Gen.ralcGen .lp64) 4096)
        (added .lp64 (Gen.ralcGen .lp64) (Gen.ralcGen .lp64) 4096) (start .lp64 1 2 none none Gen.kib)
        [.set [1] 4, .set [2] 4, .getOrAdd [3] 4, .set [4] 4] := by
  have facts : (run (step .lp64 (Gen.ralcGen .lp64) (Gen.ralcGen .lp64) 4096)
      (start .lp64 1 2 none none Gen.kib) [.set [1] 4, .set [2] 4, .getOrAdd [3] 4, .set [4] 4]).map
        (fun s => s.map.count) = some 4 := by decide +kernel
  have moved : totalCost (step .lp64 (Gen.ralcGen .lp64) (Gen.ralcGen .lp64) 4096)
      (fun s op => op.rounds .lp64 (Gen.ralcGen .lp64) s) (start .lp64 1 2 none none Gen.kib)
      [.set [1] 4, .set [2] 4, .getOrAdd [3] 4, .set [4] 4] = 3 := by decide +kernel
  obtain ⟨s, ran, -⟩ := Option.map_eq_some_iff.mp facts
  have amortized := rmap_amortized (Gen.kib_serves true) (Gen.kib_serves false) Gen.kib_ok
    (fun _ => compatible_default _) ran
  exact ⟨s, ran, moved, moved ▸ amortized.1⟩

end Ratlib.Rmap
