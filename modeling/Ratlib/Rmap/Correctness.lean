import Ratlib.Alloc.Ledger
import Ratlib.Gen.Contract
import Ratlib.Rmap.Runs

/-! A hash map refines a finite map, keeps its chains in order, is iterated over element by
element, and owns exactly the memory that its elements and its bucket array need. -/
namespace Ratlib.Rmap

open Dictionary Hash

/-- What a lookup of the key finds: the value cell and the stored key. -/
def observe (P : Platform) (s : State σ) (k : List UInt8) : Option (Option (Nat × List UInt8)) :=
  (find P s.map s.world.mem k).map fun found => found.map fun prevNext =>
    let e := P.get s.world.mem prevNext
    (elemValue P s.world.mem e, storedKey P s.world.mem e)

/-- The map holds the entries: one for a class of keys, with its value cell and the key
that was stored last. -/
structure Represents (P : Platform) (s : State σ) : Prop where
  distinct : Distinct s.map.equals Entry.key s.entries
  count : s.map.count = s.entries.length
  finds : ∀ k, observe P s k =
    some ((lookup s.map.equals Entry.key k s.entries).map fun x => (x.cell, x.key))
  gets : ∀ k, rmapGet P s.map s.world.mem k =
    some (valueOf (lookup s.map.equals Entry.key k s.entries))

/-- What a call returned is right, and it left alone what it was not about. -/
structure Answers (P : Platform) (s : State σ) (op : Op) (result : Result) (s' : State σ) : Prop where
  returns : op.Returns s result
  others : ∀ k, ¬op.Concerns s result k → observe P s' k = observe P s k
  keeps : ∀ x ∈ s.entries, ¬op.Concerns s result x.key → Keeps s.world.mem s'.world.mem x

/-- The chains of a map, as its words in memory and its members are. -/
structure Chained (P : Platform) (p : RMap) (m : Mem) (chains : Nat → List Nat) : Prop where
  size : p.bucketCount = 0 ∨ ∃ k, 2 ≤ k ∧ p.bucketCount = 2 ^ k
  linked : ∀ i < p.bucketCount, Chain (P.get m) 0 (bucket P p.buckets i) (chains i)
  nonnull : 0 ∉ members p.bucketCount chains
  nodup : (members p.bucketCount chains).Nodup
  placed : ∀ i < p.bucketCount, ∀ e ∈ chains i,
    (hashVal P m e).toNat &&& (p.bucketCount - 1) = i
  hashed : ∀ e ∈ members p.bucketCount chains, hashVal P m e = getHashVal p (storedKey P m e)
  distinct : Compatible (getHashVal p) p.equals → (members p.bucketCount chains).Pairwise
    fun e e' => ¬p.equals (storedKey P m e) (storedKey P m e')
  count : p.count = (members p.bucketCount chains).length
  load : p.count ≤ p.bucketCount / 2 + p.bucketCount / 4

/-- A loop over a map whose elements are in `chains`: it returns them in order, then NULL,
and the choices take their elements out of the chains. -/
structure Iterates (P : Platform) (p : RMap) (m : Mem) (chains : Nat → List Nat) (choices : List Bool)
    (returned : List (Nat × List UInt8)) (p' : RMap) (m' : Mem) (chains' : Nat → List Nat) : Prop where
  returned : returned = ((members p.bucketCount chains).take choices.length).map
    (fun e => (elemValue P m e, storedKey P m e)) ++
      List.replicate (choices.length - (members p.bucketCount chains).length) (0, [])
  nonnull : ∀ e ∈ members p.bucketCount chains, elemValue P m e ≠ 0
  chained : Chained P p' m' chains'
  same : p' = { p with count := p'.count }
  count : p'.count + (removals choices (members p.bucketCount chains)).length = p.count
  chains : ∀ i < p.bucketCount, chains' i =
    (chains i).filter fun e => e ∉ removals choices (members p.bucketCount chains)
  kept : ∀ e ∈ members p.bucketCount chains',
    elemValue P m' e = elemValue P m e ∧ storedKey P m' e = storedKey P m e

/-- The two allocators of a map, as clients of theirs. -/
inductive Client where
  | buckets
  | elements
deriving DecidableEq

variable {P : Platform} {σ : Type u} {ι : Type v} {B E : Ralc σ} {ok : World σ → Blocks ι → Prop}
  {bo eo : ι} {f : List UInt8 → UInt32} {equals : List UInt8 → List UInt8 → Bool} {p : RMap} {e : Elem}
  {w : World σ} {L : Blocks ι} {chains : Nat → List Elem} {s s' : State σ} {m : Mem} {ops : List Op}
  {key0 key1 : UInt32} {hash : Option (List UInt8 → RHash → UInt32)}
  {same : Option (List UInt8 → List UInt8 → Bool)} {limit : Nat}

theorem members_map (n : Nat) (chains : Nat → List Elem) :
    members n (fun i => (chains i).map Elem.addr) = (members n chains).map Elem.addr :=
  (List.map_flatMap ..).symm

/-- The value cell and the key of an element, read from memory. -/
theorem Holds.reads (holds : Holds P ok bo eo f equals p w L chains)
    (member : e ∈ members p.bucketCount chains) :
    elemValue P w.mem e.addr = e.cell P ∧ storedKey P w.mem e.addr = e.key :=
  have stored := holds.table.stored e member
  ⟨stored.cell (holds.housed.fits e member), stored.storedKey⟩

theorem Holds.chained (serves : Serves P E eo ok limit)
    (holds : Holds P ok bo eo f equals p w L chains) :
    Chained P p w.mem fun i => (chains i).map Elem.addr where
  size := holds.filed.size
  linked := holds.table.linked
  nonnull := by
    rw [members_map]
    intro null
    obtain ⟨e, member, zero⟩ := List.mem_map.mp null
    exact (holds.nonnull serves member).1 zero
  nodup := by
    rw [members_map]
    exact holds.housed.nodup
  placed := by
    intro i low a listed
    obtain ⟨e, here, rfl⟩ := List.mem_map.mp listed
    have stored := holds.table.stored e (mem_members.mpr ⟨i, low, here⟩)
    have small := holds.count_le serves
    have placed := holds.filed.placed i low e here
    rwa [bucketIndex, Platform.sub_of_le (by omega) small, ← stored.hash] at placed
  hashed := by
    rw [members_map]
    intro a listed
    obtain ⟨e, member, rfl⟩ := List.mem_map.mp listed
    have stored := holds.table.stored e member
    rw [stored.hash, stored.storedKey, holds.hashes]
  distinct := by
    rw [holds.hashes, holds.compares, members_map]
    refine fun compatible => List.pairwise_map.mpr ?_
    refine (holds.filed.distinct compatible).imp_of_mem fun {e e'} member member' differs => ?_
    rwa [(holds.table.stored e member).storedKey, (holds.table.stored e' member').storedKey]
  count := by
    rw [members_map, List.length_map]
    exact holds.count
  load := holds.load

/-- The map holds what the entries say. -/
theorem Inv.represents (serves : Serves P E eo ok limit) (compatible : Compatible f equals)
    (inv : Inv P ok bo eo f equals s) : Represents P s := by
  obtain ⟨L, chains, holds, same, -⟩ := inv
  have same := same compatible
  have distinct := holds.distinct compatible same
  constructor
  · rw [holds.compares]
    exact distinct
  · rw [holds.count, ← same.length_eq, List.length_map]
  · intro k
    obtain ⟨old, found, link, result, there⟩ := find_stored serves holds k
    rw [observe, result, Option.map_some, there, holds.compares,
      found.lookup compatible same distinct, Option.map_map]
    rfl
  · intro k
    obtain ⟨old, found, result⟩ := rmapGet_cases serves holds k
    rw [result, holds.compares, found.lookup compatible same distinct, valueOf, Option.map_map]
    rfl

theorem inv_start (before : ok w L) (alone : Owns L bo eo 0 0 []) :
    Inv P ok bo eo (getHashVal (rmapInit P key0 key1 hash same)) (rmapInit P key0 key1 hash same).equals
      (start P key0 key1 hash same w) := by
  refine ⟨L, fun _ => [], ?_, fun _ => List.Perm.refl _, fun i iter there => by cases there⟩
  constructor
  case ok => exact before
  case owns => exact alone
  case housed => constructor <;> simp [start, rmapInit, members]
  case table => constructor <;> simp [start, rmapInit, members]
  case filed => constructor <;> simp [start, rmapInit, members]
  all_goals simp [start, rmapInit, members]

/-- Writes by a client take callbacks that agree. -/
theorem run_inv (servesB : Serves P B bo ok limit) (serves : Serves P E eo ok limit)
    (initial : Inv P ok bo eo f equals s) (agree : (∃ op ∈ ops, op.Writes) → Compatible f equals)
    (ran : run (step P B E limit) s ops = some s') : Inv P ok bo eo f equals s' :=
  run_invariant_mem (Inv P ok bo eo f equals) (fun _ op _ member inv stepped =>
    have ⟨_, _, _, effect⟩ := step_effect servesB serves inv (fun writes => agree ⟨op, member, writes⟩)
      stepped
    effect.inv) initial ran

def ownerOf (bo eo : ι) : ι ⊕ Client → ι
  | .inl other => other
  | .inr .buckets => bo
  | .inr .elements => eo

theorem owns_none (L : Blocks ι) :
    Owns (L.relabel (Sum.inl (β := Client))) (.inr .buckets) (.inr .elements) 0 0 [] := by
  intro a block held owned
  obtain ⟨other, -, rfl⟩ := Option.map_eq_some_iff.mp held
  simp at owned

/-- The callbacks of a map that was given none agree. -/
theorem compatible_default (f : List UInt8 → UInt32) : Compatible f defaultEquals where
  refl a := beq_self_eq_true a
  symm a b equal := by rwa [defaultEquals, BEq.comm]
  trans a b c equal equal' := by
    cases eq_of_beq equal
    exact equal'
  hash a b equal := by rw [eq_of_beq equal]

section Runs

/-- Labels for the blocks of the map alone. -/
def Labelled (ok : World σ → Blocks ι → Prop) (bo eo : ι) (w : World σ) (L : Blocks (ι ⊕ Client)) :
    Prop := ok w (L.relabel (ownerOf bo eo))

theorem buckets_serves (servesB : Serves P B bo ok limit) :
    Serves P B (Sum.inr Client.buckets) (Labelled ok bo eo) limit := servesB.relabel

theorem elements_serves (serves : Serves P E eo ok limit) :
    Serves P E (Sum.inr Client.elements) (Labelled ok bo eo) limit := serves.relabel

theorem labelled_start (before : ok w L) : Labelled ok bo eo w (L.relabel Sum.inl) := by
  rw [Labelled, Blocks.relabel_relabel fun _ => rfl]
  exact before

variable (servesB : Serves P B bo ok limit) (serves : Serves P E eo ok limit) (before : ok w L)

include servesB serves before in
theorem run_start (agree : (∃ op ∈ ops, op.Writes) →
      Compatible (getHashVal (rmapInit P key0 key1 hash same)) (rmapInit P key0 key1 hash same).equals)
    (ran : run (step P B E limit) (start P key0 key1 hash same w) ops = some s) :
    Inv P (Labelled ok bo eo) (.inr .buckets) (.inr .elements)
      (getHashVal (rmapInit P key0 key1 hash same)) (rmapInit P key0 key1 hash same).equals s :=
  run_inv (buckets_serves servesB) (elements_serves serves)
    (inv_start (labelled_start before) (owns_none L)) agree ran

include servesB serves before in
/-- After any run a lookup finds, for every key, the value cell given out last and the key
stored last, and the count is that of the classes. Every call that the source allows then
returns, reports the presence of its key, and leaves all other classes alone; one that
fails leaves all of them alone. -/
theorem rmap_refines
    (compatible : Compatible (getHashVal (rmapInit P key0 key1 hash same))
      (rmapInit P key0 key1 hash same).equals)
    (ran : run (step P B E limit) (start P key0 key1 hash same w) ops = some s) :
    Represents P s ∧ ∀ op, op.Asserts P limit s → ∃ result s',
      (call P B E s op).map Prod.fst = some result ∧ step P B E limit s op = some s' ∧
        Answers P s op result s' := by
  have inv := run_start servesB serves before (fun _ => compatible) ran
  have servesB : Serves P B _ (Labelled ok bo eo) limit := buckets_serves servesB
  have serves : Serves P E _ (Labelled ok bo eo) limit := elements_serves serves
  have represents := inv.represents serves compatible
  refine ⟨represents, fun op asserts => ?_⟩
  obtain ⟨result, p', w', iters, called, effect⟩ :=
    call_effect servesB serves inv op (fun _ => compatible) asserts
  refine ⟨result, ⟨p', w', op.edit s result, iters⟩, by rw [called]; rfl, ?_,
    effect.returns compatible, fun k apart => ?_, effect.keeps compatible⟩
  · rw [step, if_pos asserts, called]
    rfl
  · have after := effect.inv.represents serves compatible
    have equals : p'.equals = s.map.equals := by
      obtain ⟨_, _, holds, -⟩ := inv
      obtain ⟨_, _, holds', -⟩ := effect.inv
      exact holds'.compares.trans holds.compares.symm
    have equiv : Equivalence fun a b => s.map.equals a b = true := by
      obtain ⟨_, _, holds, -⟩ := inv
      rw [holds.compares]
      exact compatible.equivalence
    rw [after.finds, represents.finds]
    dsimp only
    rw [equals, edit_others equiv op apart]

theorem rmap_refines_lp64 : ∃ s, run (step .lp64 (Gen.ralcGen .lp64) (Gen.ralcGen .lp64) 4096)
      (start .lp64 1 2 none none Gen.kib) [.set [1] 4, .getOrAdd [2, 3] 8, .set [1] 40,
        .remove [2, 3]] = some s ∧ s.map.count = 1 ∧ Represents .lp64 s := by
  have facts : (run (step .lp64 (Gen.ralcGen .lp64) (Gen.ralcGen .lp64) 4096)
      (start .lp64 1 2 none none Gen.kib) [.set [1] 4, .getOrAdd [2, 3] 8, .set [1] 40,
        .remove [2, 3]]).map (fun s => s.map.count) = some 1 := by decide +kernel
  obtain ⟨s, ran, count⟩ := Option.map_eq_some_iff.mp facts
  exact ⟨s, ran, count, (rmap_refines (Gen.kib_serves true) (Gen.kib_serves false) Gen.kib_ok
    (compatible_default _) ran).1⟩

/-- A table that has grown has room: at the same count it does not grow again. -/
theorem Grew.trans {p₁ p' : RMap} (grew : Grew p p₁) (grew' : Grew p₁ p')
    (same : p₁.count = p.count) (load : p.count ≤ p.bucketCount / 2 + p.bucketCount / 4)
    (size : p.bucketCount = 0 ∨ ∃ k, 2 ≤ k ∧ p.bucketCount = 2 ^ k) : Grew p p' := by
  rcases grew with stays | ⟨full, grown⟩
  · rwa [Grew, stays, same] at grew'
  · rcases grew' with stays | ⟨full', -⟩
    · exact Or.inr ⟨full, stays.trans grown⟩
    · have room := grownCount_room size
      rw [grown, same] at full'
      omega

include servesB serves in
/-- Insertions at an unchanged count grow the table by one step at most. -/
theorem insertions_grow (inv : Inv P ok bo eo f equals s) (inserts : ∀ op ∈ ops, op.Inserts)
    (ran : run (step P B E limit) s ops = some s') :
    s.map.count ≤ s'.map.count ∧ (s'.map.count = s.map.count → Grew s.map s'.map) := by
  induction ops generalizing s with
  | nil =>
    cases ran
    exact ⟨Nat.le_refl _, fun _ => Or.inl rfl⟩
  | cons op ops ih =>
    obtain ⟨s₁, first, rest⟩ := run_cons_some ran
    have inserting := inserts op List.mem_cons_self
    have pure : op.Writes → Compatible f equals := by cases op <;> simp_all [Op.Inserts, Op.Writes]
    obtain ⟨asserts, result, called, effect⟩ := step_effect servesB serves inv pure first
    obtain ⟨grew, more, -⟩ := effect.grew inserting
    obtain ⟨more', later⟩ := ih effect.inv (fun op member => inserts op (List.mem_cons_of_mem _ member)) rest
    refine ⟨Nat.le_trans more more', fun same => ?_⟩
    obtain ⟨_, _, holds, -⟩ := inv
    exact grew.trans (later (by omega)) (by omega) holds.load holds.filed.size

include servesB serves before in
/-- After any run the chains are in order. If insertions that follow leave the count alone,
each of them may fail, but the table grows by one step at most. -/
theorem rmap_chained (compatible : Compatible (getHashVal (rmapInit P key0 key1 hash same))
      (rmapInit P key0 key1 hash same).equals)
    (ran : run (step P B E limit) (start P key0 key1 hash same w) ops = some s) :
    (∃ chains, Chained P s.map s.world.mem chains ∧ (members s.map.bucketCount chains).Pairwise
      fun e e' => ¬s.map.equals (storedKey P s.world.mem e) (storedKey P s.world.mem e')) ∧
    ∀ ops s', (∀ op ∈ ops, op.Inserts) → run (step P B E limit) s ops = some s' →
      s'.map.count = s.map.count → s'.map.bucketCount = s.map.bucketCount ∨
        s'.map.bucketCount = grownCount s.map.bucketCount := by
  have inv := run_start servesB serves before (fun _ => compatible) ran
  have servesB : Serves P B _ (Labelled ok bo eo) limit := buckets_serves servesB
  have serves : Serves P E _ (Labelled ok bo eo) limit := elements_serves serves
  refine ⟨?_, fun ops s' inserts later unchanged => ?_⟩
  · obtain ⟨L, chains, holds, -⟩ := inv
    have chained := holds.chained serves
    refine ⟨_, chained, chained.distinct ?_⟩
    rwa [holds.hashes, holds.compares]
  · exact ((insertions_grow servesB serves inv inserts later).2 unchanged).imp_right And.right

/-- Two insertions that find no room for their element, the first of them with a full table. -/
theorem rmap_chained_lp64 : ∃ s s', run (step .lp64 (Gen.ralcGen .lp64) (Gen.ralcGen .lp64) 4096)
      (start .lp64 1 2 none none Gen.kib) [.set [1] 4, .set [2] 4, .set [3] 4] = some s ∧
    run (step .lp64 (Gen.ralcGen .lp64) (Gen.ralcGen .lp64) 4096) s [.set [4] 3000, .set [5] 3000] =
      some s' ∧ s'.map.count = s.map.count ∧
        (s'.map.bucketCount = s.map.bucketCount ∨
          s'.map.bucketCount = grownCount s.map.bucketCount) := by
  have facts : (run (step .lp64 (Gen.ralcGen .lp64) (Gen.ralcGen .lp64) 4096)
      (start .lp64 1 2 none none Gen.kib) [.set [1] 4, .set [2] 4, .set [3] 4]).bind (fun s =>
        (run (step .lp64 (Gen.ralcGen .lp64) (Gen.ralcGen .lp64) 4096) s
          [.set [4] 3000, .set [5] 3000]).map fun s' => (s.map.count, s'.map.count)) = some (3, 3) := by
    decide +kernel
  obtain ⟨s, ran, more⟩ := Option.bind_eq_some_iff.mp facts
  obtain ⟨s', later, counts⟩ := Option.map_eq_some_iff.mp more
  obtain ⟨count, count'⟩ := Prod.mk.inj counts
  have same : s'.map.count = s.map.count := count'.trans count.symm
  exact ⟨s, s', ran, later, same, (rmap_chained (Gen.kib_serves true) (Gen.kib_serves false)
    Gen.kib_ok (compatible_default _) ran).2 _ s' (by simp [Op.Inserts]) later same⟩

include servesB serves before in
/-- From any reachable map, a loop of `rmap_iterAll_next` that removes whatever it likes
returns every element once and then NULL; the elements that it did not remove are left, in
their chains, with their keys and value cells. -/
theorem rmap_iterates
    (agree : (∃ op ∈ ops, op.Writes) → Compatible (getHashVal (rmapInit P key0 key1 hash same))
      (rmapInit P key0 key1 hash same).equals)
    (ran : run (step P B E limit) (start P key0 key1 hash same w) ops = some s)
    (choices : List Bool) :
    ∃ chains chains' returned it p' w',
      visits P E choices s.map s.world rmapGetAll = (returned, it, p', w') ∧
      Chained P s.map s.world.mem chains ∧
      Iterates P s.map s.world.mem chains choices returned p' w'.mem chains' ∧
      (Compatible (getHashVal s.map) s.map.equals →
        ((members s.map.bucketCount chains).map fun e =>
          (elemValue P s.world.mem e, storedKey P s.world.mem e)).Perm
            (s.entries.map fun x => (x.cell, x.key)) ∧
        ∀ x ∈ s.entries, x.cell ∉ (removals choices (members s.map.bucketCount chains)).map
          (elemValue P s.world.mem) → Keeps s.world.mem w'.mem x) := by
  obtain ⟨L', chains, holds, entries, -⟩ := run_start servesB serves before agree ran
  have serves : Serves P E _ (Labelled ok bo eo) limit := elements_serves serves
  obtain ⟨returned, it, c, w', L'', chains', result, list, holds', count, left, bodies⟩ :=
    visits_cases serves choices holds stands_getAll remaining_getAll
  have reads := fun e member => holds.reads (e := e) member
  have returned_eq : ∀ l : List Elem, (∀ e ∈ l, e ∈ members s.map.bucketCount chains) →
      (l.map Elem.addr).map (fun e => (elemValue P s.world.mem e, storedKey P s.world.mem e)) =
        l.map fun e => (e.cell P, e.key) := by
    intro l within
    rw [List.map_map]
    refine List.map_congr_left fun e member => ?_
    obtain ⟨cell, key⟩ := reads e (within e member)
    exact Prod.ext cell key
  refine ⟨_, _, returned, it, _, w', result, holds.chained serves, ⟨?_, ?_, holds'.chained serves, rfl,
    ?_, ?_, ?_⟩, fun compatible => ⟨?_, ?_⟩⟩
  · rw [members_map, ← List.map_take, List.length_map,
      returned_eq _ fun e member => List.mem_of_mem_take member]
    exact list
  · rw [members_map]
    intro a listed
    obtain ⟨e, member, rfl⟩ := List.mem_map.mp listed
    rw [(reads e member).1]
    exact Elem.cell_ne_zero
  · rw [members_map, removals_map, List.length_map]
    exact count
  · intro i low
    rw [members_map, removals_map, left i low, List.filter_map]
    rfl
  · rw [members_map]
    intro a listed
    obtain ⟨e, member, rfl⟩ := List.mem_map.mp listed
    obtain ⟨i, low, here⟩ := mem_members.mp member
    rw [left i low] at here
    have known : e ∈ members s.map.bucketCount chains :=
      mem_members.mpr ⟨i, low, List.mem_of_mem_filter here⟩
    have after := holds'.reads (e := e) member
    exact ⟨after.1.trans (reads e known).1.symm, after.2.trans (reads e known).2.symm⟩
  · rw [holds.hashes, holds.compares] at compatible
    rw [members_map, returned_eq _ fun _ => id]
    have cells := (entries compatible).map fun x => (x.cell, x.key)
    rwa [List.map_map] at cells
  · rw [holds.hashes, holds.compares] at compatible
    intro x known stays
    obtain ⟨e, member, rfl⟩ := List.mem_map.mp ((entries compatible).mem_iff.mpr known)
    obtain ⟨i, low, here⟩ := mem_members.mp member
    refine Elem.body_keeps bodies _ (List.mem_map_of_mem (mem_members.mpr ⟨i, low, ?_⟩))
    rw [left i low, List.mem_filter]
    refine ⟨here, decide_eq_true fun gone => stays ?_⟩
    rw [members_map, removals_map]
    have listed := List.mem_map_of_mem (f := elemValue P s.world.mem) gone
    rwa [(reads e member).1] at listed

theorem rmap_iterates_lp64 : ∃ s, run (step .lp64 (Gen.ralcGen .lp64) (Gen.ralcGen .lp64) 4096)
      (start .lp64 1 2 none none Gen.kib) [.set [1] 4, .set [2] 4] = some s ∧
    ∃ chains chains' returned it p' w', visits .lp64 (Gen.ralcGen .lp64) [true, false, false] s.map
        s.world rmapGetAll = (returned, it, p', w') ∧ Chained .lp64 s.map s.world.mem chains ∧
      Iterates .lp64 s.map s.world.mem chains [true, false, false] returned p' w'.mem chains' := by
  have facts : (run (step .lp64 (Gen.ralcGen .lp64) (Gen.ralcGen .lp64) 4096)
      (start .lp64 1 2 none none Gen.kib) [.set [1] 4, .set [2] 4]).isSome := by decide +kernel
  obtain ⟨s, ran⟩ := Option.isSome_iff_exists.mp facts
  obtain ⟨chains, chains', returned, it, p', w', result, chained, iterates, -⟩ :=
    rmap_iterates (Gen.kib_serves true) (Gen.kib_serves false) Gen.kib_ok
      (fun _ => compatible_default _) ran [true, false, false]
  exact ⟨s, ran, chains, chains', returned, it, p', w', result, chained, iterates⟩

/-- The live blocks by the ledger are the linked elements and the bucket array. -/
structure OwnsExactly (P : Platform) (p : RMap) (m : Mem) (calls : List (Client × Call)) : Prop where
  elements : ∃ chains live, Chained P p m chains ∧ liveOf .elements calls = some live ∧
    live.Perm (members p.bucketCount chains)
  buckets : liveOf .buckets calls = some (if p.bucketCount = 0 then [] else [p.buckets])

theorem OwnsExactly.cleared (owns : OwnsExactly P p m calls) (none : p.bucketCount = 0) :
    liveOf .elements calls = some [] ∧ liveOf .buckets calls = some [] := by
  obtain ⟨⟨chains, live, -, found, perm⟩, array⟩ := owns
  rw [none] at perm
  rw [if_pos none] at array
  cases perm.eq_nil
  exact ⟨found, array⟩

theorem rmapClear_none (cleared : rmapClear P B E p w = some (p', w')) : p'.bucketCount = 0 := by
  rw [rmapClear] at cleared
  split at cleared
  case isTrue none =>
    cases cleared
    exact none
  case isFalse =>
    obtain ⟨w₁, -, same⟩ := Option.map_eq_some_iff.mp cleared
    cases same
    rfl

theorem Holds.exactly {ok : World σ → Blocks (ι ⊕ Client) → Prop} {L : Blocks (ι ⊕ Client)}
    (serves : Serves P E (.inr Client.elements) ok limit)
    (holds : Holds P ok (.inr .buckets) (.inr .elements) f equals p w L chains)
    (recorded : Recorded calls L) : OwnsExactly P p w.mem calls := by
  constructor
  · obtain ⟨live, found, nodup, lists⟩ := recorded .elements
    have chained := holds.chained serves
    refine ⟨_, live, chained, found, (List.perm_ext_iff_of_nodup nodup chained.nodup).mpr fun a => ?_⟩
    rw [lists a, members_map]
    constructor
    · rintro ⟨size, held⟩
      rcases holds.owns a _ held (Or.inr rfl) with ⟨some, rfl⟩ | ⟨e, member, rfl⟩
      · obtain ⟨_, array, -⟩ := holds.housed.array some
        rw [held] at array
        cases array
      · exact List.mem_map_of_mem member
    · intro listed
      obtain ⟨e, member, rfl⟩ := List.mem_map.mp listed
      obtain ⟨size, held, -⟩ := holds.housed.held e member
      exact ⟨size, held⟩
  · obtain ⟨live, found, nodup, lists⟩ := recorded .buckets
    have only : ∀ a, a ∈ live ↔ p.bucketCount ≠ 0 ∧ a = p.buckets := by
      intro a
      rw [lists a]
      constructor
      · rintro ⟨size, held⟩
        rcases holds.owns a _ held (Or.inl rfl) with array | ⟨e, member, rfl⟩
        · exact array
        · obtain ⟨_, elem, -⟩ := holds.housed.held e member
          rw [held] at elem
          cases elem
      · rintro ⟨some, rfl⟩
        obtain ⟨size, held, -⟩ := holds.housed.array some
        exact ⟨size, held⟩
    rw [found]
    split
    case isTrue none =>
      congr 1
      exact List.eq_nil_iff_forall_not_mem.mpr fun a member => ((only a).mp member).1 none
    case isFalse some =>
      congr 1
      refine List.perm_singleton.mp ((List.perm_ext_iff_of_nodup nodup (List.nodup_singleton _)).mpr
        fun a => ?_)
      rw [only a, List.mem_singleton, and_iff_right some]

theorem step_clear_none (stepped : step P B E limit s .clear = some s') : s'.map.bucketCount = 0 := by
  rw [step, if_pos (show Op.clear.Asserts P limit s from trivial), call, Option.map_map] at stepped
  obtain ⟨⟨p', w'⟩, cleared, rfl⟩ := Option.map_eq_some_iff.mp stepped
  exact rmapClear_none cleared

def Watched (ok : World σ → Blocks ι → Prop) (bo eo : ι) (w : World (σ × List (Client × Call)))
    (L : Blocks (ι ⊕ Client)) : Prop :=
  Labelled ok bo eo (untraced w) L ∧ Recorded w.state.2 L

include servesB serves before in
/-- Over allocators whose calls are recorded, every call of a run was on a live block of
its allocator, and the blocks that are live are the linked elements, one for each, and the
bucket array. No block is live behind `rmap_clear`. The callbacks may be any functions. -/
theorem rmap_owns
    (agree : (∃ op ∈ ops, op.Writes) → Compatible (getHashVal (rmapInit P key0 key1 hash same))
      (rmapInit P key0 key1 hash same).equals)
    {s : State (σ × List (Client × Call))}
    (ran : run (step P (watched B .buckets) (watched E .elements) limit)
      (start P key0 key1 hash same ⟨(w.state, []), w.mem⟩) ops = some s) :
    OwnsExactly P s.map s.world.mem s.world.state.2 ∧
      ∀ s', step P (watched B .buckets) (watched E .elements) limit s .clear = some s' →
        OwnsExactly P s'.map s'.world.mem s'.world.state.2 ∧
          liveOf .elements s'.world.state.2 = some [] ∧ liveOf .buckets s'.world.state.2 = some [] := by
  have servesB : Serves P (watched B Client.buckets) _ (Watched ok bo eo) limit :=
    watched_serves (buckets_serves servesB)
  have serves : Serves P (watched E Client.elements) _ (Watched ok bo eo) limit :=
    watched_serves (elements_serves serves)
  have initial : Watched ok bo eo ⟨(w.state, []), w.mem⟩ (L.relabel Sum.inl) :=
    ⟨labelled_start before, recorded_nil⟩
  have inv := run_inv servesB serves (inv_start initial (owns_none L)) agree ran
  have exactly : ∀ s : State (σ × List (Client × Call)), Inv P (Watched ok bo eo) (.inr .buckets)
      (.inr .elements) (getHashVal (rmapInit P key0 key1 hash same))
        (rmapInit P key0 key1 hash same).equals s → OwnsExactly P s.map s.world.mem s.world.state.2 := by
    rintro s ⟨L', chains, holds, -⟩
    exact holds.exactly serves holds.ok.2
  refine ⟨exactly s inv, fun s' stepped => ?_⟩
  obtain ⟨-, result, called, effect⟩ := step_effect servesB serves inv False.elim stepped
  have owns := exactly s' effect.inv
  exact ⟨owns, owns.cleared (step_clear_none stepped)⟩

theorem rmap_owns_lp64 : ∃ s : State (Gen.RalcGen × List (Client × Call)),
    run (step .lp64 (watched (Gen.ralcGen .lp64) Client.buckets)
      (watched (Gen.ralcGen .lp64) Client.elements) 4096)
      (start .lp64 1 2 none none ⟨(Gen.kib.state, []), Gen.kib.mem⟩)
        [.set [1] 4, .getOrAdd [2, 3] 8, .set [1] 40, .remove [2, 3]] = some s ∧
      s.map.count = 1 ∧ OwnsExactly .lp64 s.map s.world.mem s.world.state.2 := by
  have facts : (run (step .lp64 (watched (Gen.ralcGen .lp64) Client.buckets)
      (watched (Gen.ralcGen .lp64) Client.elements) 4096)
      (start .lp64 1 2 none none ⟨(Gen.kib.state, []), Gen.kib.mem⟩)
        [.set [1] 4, .getOrAdd [2, 3] 8, .set [1] 40, .remove [2, 3]]).map (fun s => s.map.count) =
          some 1 := by decide +kernel
  obtain ⟨s, ran, count⟩ := Option.map_eq_some_iff.mp facts
  exact ⟨s, ran, count, (rmap_owns (Gen.kib_serves true) (Gen.kib_serves false) Gen.kib_ok
    (fun _ => compatible_default _) ran).1⟩

end Runs

end Ratlib.Rmap
