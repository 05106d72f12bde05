import Ratlib.Rmap.Clear

/-! An iterator over all elements: what is left of its chain, the buckets behind, and the
cell before the element that it returned last. -/
namespace Ratlib.Rmap

variable {P : Platform} {σ : Type u} {ι : Type v} {A E : Ralc σ} {ok : World σ → Blocks ι → Prop}
  {bo eo owner : ι} {f : List UInt8 → UInt32} {equals : List UInt8 → List UInt8 → Bool}
  {p p' : RMap} {w w' : World σ} {L L' : Blocks ι} {chains : Nat → List Elem} {m : Mem}
  {base n i : Nat} {es rest xs ys tail : List Elem} {e : Elem} {it it' : IterAll}

/-- What is left: the rest of the chain, and the buckets behind. -/
def remaining (n : Nat) (chains : Nat → List Elem) (it : IterAll) (tail : List Elem) : List Elem :=
  tail ++ (List.range' it.bucketIndex (n - it.bucketIndex)).flatMap chains

/-- The iterator stands before the rest of a chain. -/
structure Stands (P : Platform) (base n : Nat) (chains : Nat → List Elem) (it : IterAll)
    (tail : List Elem) : Prop where
  low : it.bucketIndex ≤ n
  next : it.next = entry 0 (tail.map Elem.addr)
  before : tail ≠ [] → ∃ i xs, it.bucketIndex = i + 1 ∧ chains i = xs ++ tail ∧
    it.prevNext = exit (bucket P base i) (xs.map Elem.addr)

/-- The element before the rest of the chain is the last one returned. -/
def Last (P : Platform) (base : Nat) (chains : Nat → List Elem) (it : IterAll) (tail : List Elem)
    (e : Elem) : Prop :=
  ∃ i xs, it.bucketIndex = i + 1 ∧ chains i = xs ++ [e] ++ tail ∧ it.last = e.addr ∧
    it.lastPrevNext = exit (bucket P base i) (xs.map Elem.addr)

theorem stands_getAll : Stands P base n chains rmapGetAll [] :=
  ⟨Nat.zero_le n, rfl, fun some => absurd rfl some⟩

theorem remaining_getAll : remaining n chains rmapGetAll [] = members n chains := by
  rw [remaining, members, List.range_eq_range']
  rfl

theorem Stands.next_eq_zero (stands : Stands P base n chains it tail)
    (nonnull : ∀ e ∈ members n chains, e.addr ≠ 0) : it.next = 0 ↔ tail = [] := by
  rw [stands.next]
  cases tail with
  | nil => simp [entry]
  | cons e tail =>
    obtain ⟨i, xs, index, split, -⟩ := stands.before (List.cons_ne_nil e tail)
    have inside : i < n := by
      have := stands.low
      omega
    have member : e ∈ members n chains := mem_members.mpr ⟨i, inside, by simp [split]⟩
    simpa [entry] using nonnull e member

/-- The loop of `rmap_iterAll_next` stops before an element, or behind the last bucket. -/
theorem nextChain_cases (linked : ∀ i < p.bucketCount,
      Chain (P.get m) 0 (bucket P p.buckets i) ((chains i).map Elem.addr))
    (nonnull : ∀ e ∈ members p.bucketCount chains, e.addr ≠ 0)
    (stands : Stands P p.buckets p.bucketCount chains it tail)
    (left : it.bucketIndex + n = p.bucketCount) :
    ∃ tail', Stands P p.buckets p.bucketCount chains (nextChain P p m n it) tail' ∧
      remaining p.bucketCount chains (nextChain P p m n it) tail' =
        remaining p.bucketCount chains it tail ∧
      (tail' = [] → (nextChain P p m n it).bucketIndex = p.bucketCount) := by
  induction n generalizing it tail with
  | zero => exact ⟨tail, stands, rfl, fun _ => left⟩
  | succ n ih =>
    rw [nextChain]
    by_cases more : it.next ≠ 0
    · rw [if_pos more]
      exact ⟨tail, stands, rfl, fun none => absurd ((stands.next_eq_zero nonnull).mpr none) more⟩
    · rw [if_neg more]
      have none := (stands.next_eq_zero nonnull).mp (not_not.mp more)
      have inside : it.bucketIndex < p.bucketCount := by omega
      have stands' : Stands P p.buckets p.bucketCount chains
          { it with
            bucketIndex := it.bucketIndex + 1
            next := P.get m (bucket P p.buckets it.bucketIndex)
            prevNext := bucket P p.buckets it.bucketIndex } (chains it.bucketIndex) :=
        ⟨inside, (linked _ inside).entry, fun _ => ⟨it.bucketIndex, [], rfl, rfl, rfl⟩⟩
      obtain ⟨tail', there, same, behind⟩ := ih stands' (by dsimp only; omega)
      refine ⟨tail', there, same.trans ?_, behind⟩
      have range : p.bucketCount - it.bucketIndex = p.bucketCount - (it.bucketIndex + 1) + 1 := by omega
      rw [remaining, remaining, none, range, List.range'_succ, List.flatMap_cons, List.nil_append]

theorem nextChain_last (P : Platform) (p : RMap) (m : Mem) (n : Nat) (it : IterAll) :
    (nextChain P p m n it).last = it.last := by
  induction n generalizing it with
  | zero => rfl
  | succ n ih =>
    rw [nextChain]
    split
    · rfl
    · rw [ih]

/-- `rmap_iterAll_next` returns the first element that is left, or NULL. -/
theorem next_cases (serves : Serves P E eo ok limit)
    (holds : Holds P ok bo eo f equals p w L chains)
    (stands : Stands P p.buckets p.bucketCount chains it tail) :
    match remaining p.bucketCount chains it tail with
    | [] => ∃ it', rmapIterAllNext P p w.mem it = (0, [], it') ∧
        Stands P p.buckets p.bucketCount chains it' [] ∧ remaining p.bucketCount chains it' [] = [] ∧
        it'.last = 0
    | e :: rest => ∃ it' tail', rmapIterAllNext P p w.mem it = (e.cell P, e.key, it') ∧
        Stands P p.buckets p.bucketCount chains it' tail' ∧
        Last P p.buckets chains it' tail' e ∧ remaining p.bucketCount chains it' tail' = rest := by
  have nonnull := fun e member => (holds.nonnull serves (e := e) member).1
  have cleared : Stands P p.buckets p.bucketCount chains { it with last := 0, lastPrevNext := 0 }
      tail := ⟨stands.low, stands.next, stands.before⟩
  have low := stands.low
  obtain ⟨tail', there, same, behind⟩ := nextChain_cases holds.table.linked nonnull cleared
    (Nat.add_sub_of_le low)
  have last := nextChain_last P p w.mem (p.bucketCount - it.bucketIndex)
    { it with last := 0, lastPrevNext := 0 }
  change remaining _ _ _ _ = remaining p.bucketCount chains it tail at same
  rw [← same]
  simp only [rmapIterAllNext]
  generalize nextChain P p w.mem _ _ = it₁ at there behind last ⊢
  have null := there.next_eq_zero nonnull
  cases tail' with
  | nil =>
    rw [remaining, behind rfl, Nat.sub_self]
    refine ⟨it₁, if_pos (null.mpr rfl), there, ?_, last⟩
    rw [remaining, behind rfl, Nat.sub_self]
    rfl
  | cons e tail' =>
    obtain ⟨i, xs, index, split, before⟩ := there.before (List.cons_ne_nil e tail')
    have split : chains i = xs ++ [e] ++ tail' := by simpa using split
    have inside : i < p.bucketCount := by
      have := there.low
      omega
    have member : e ∈ members p.bucketCount chains := mem_members.mpr ⟨i, inside, by simp [split]⟩
    have first : it₁.next = e.addr := there.next
    have stored := holds.table.stored e member
    have after := (holds.before inside (by simpa using split)).2
    rw [if_neg (by simp [null]), first, stored.cell (holds.housed.fits e member), stored.storedKey]
    refine ⟨_, tail', rfl, ⟨there.low, after, fun _ => ⟨i, xs ++ [e], index, split, ?_⟩⟩,
      ⟨i, xs, index, split, rfl, before⟩, rfl⟩
    simp [exit]

/-- Unlinking an element from its chain is dropping it from all chains. -/
theorem unlinked_filter (nodup : ((members n chains).map Elem.addr).Nodup) (inside : i < n)
    (split : chains i = xs ++ [e] ++ ys) : ∀ j < n, Function.update chains i (xs ++ ys) j =
      (chains j).filter fun x => x.addr ≠ e.addr := by
  intro j low
  have whole := (members_taken inside split).map Elem.addr
  rw [List.map_append, List.map_singleton, List.singleton_append] at whole
  have away := (List.nodup_cons.mp (whole.nodup_iff.mp nodup)).1
  have others : ∀ x ∈ Function.update chains i (xs ++ ys) j, x.addr ≠ e.addr := fun x member same =>
    away (same ▸ List.mem_map_of_mem (mem_members.mpr ⟨j, low, member⟩))
  by_cases same : j = i
  · subst same
    rw [Function.update_self] at others ⊢
    rw [split, List.filter_append, List.filter_append]
    simp only [List.mem_append] at others
    have front : ∀ x ∈ xs, decide (x.addr ≠ e.addr) = true :=
      fun x member => decide_eq_true (others x (Or.inl member))
    have back : ∀ x ∈ ys, decide (x.addr ≠ e.addr) = true :=
      fun x member => decide_eq_true (others x (Or.inr member))
    rw [List.filter_eq_self.mpr front, List.filter_eq_self.mpr back]
    simp
  · rw [Function.update_of_ne same] at others ⊢
    exact (List.filter_eq_self.mpr fun x member => decide_eq_true (others x member)).symm

/-- `rmap_iterAll_removeElem` unlinks the element returned last, and the iterator stays
before the rest. -/
theorem removeElem_cases (serves : Serves P E eo ok limit)
    (holds : Holds P ok bo eo f equals p w L chains)
    (stands : Stands P p.buckets p.bucketCount chains it tail)
    (last : Last P p.buckets chains it tail e) :
    ∃ it' w' L' chains', rmapIterAllRemoveElem P E p w it =
        (it', { p with count := P.sub p.count 1 }, w') ∧
      Holds P ok bo eo f equals { p with count := P.sub p.count 1 } w' L' chains' ∧
      Stands P p.buckets p.bucketCount chains' it' tail ∧ it'.last = 0 ∧
      remaining p.bucketCount chains' it' tail = remaining p.bucketCount chains it tail ∧
      (∃ rest, (members p.bucketCount chains).Perm (e :: rest) ∧
        members p.bucketCount chains' = rest ∧ ∀ x ∈ rest, Set.EqOn w.mem w'.mem (x.body P)) ∧
      ∀ j < p.bucketCount, chains' j = (chains j).filter fun x => x.addr ≠ e.addr := by
  obtain ⟨i, xs, index, split, this, before⟩ := last
  have low := stands.low
  have inside : i < p.bucketCount := by omega
  obtain ⟨unlinked, whole, bodies⟩ := holds.unlink serves inside split rfl
  refine ⟨{ it with prevNext := it.lastPrevNext, last := 0, lastPrevNext := 0 }, _, _, _, ?_, unlinked,
    ?_, rfl, ?_, ⟨_, whole, rfl, bodies⟩, unlinked_filter holds.housed.nodup inside split⟩
  · rw [rmapIterAllRemoveElem, this, before]
  · exact ⟨low, stands.next, fun _ => ⟨i, xs, index, Function.update_self .., before⟩⟩
  · rw [remaining, remaining]
    congr 1
    refine List.flatMap_congr fun j member => Function.update_of_ne ?_ ..
    have := (List.mem_range'_1.mp member).1
    dsimp only at this
    omega

/-- One round of a loop over a map: the next element, removed if the client asks for it
and there was one. -/
def visit (P : Platform) (E : Ralc σ) (remove : Bool) (p : RMap) (w : World σ) (it : IterAll) :
    (Nat × List UInt8) × IterAll × RMap × World σ :=
  let (value, key, it) := rmapIterAllNext P p w.mem it
  ((value, key), if remove ∧ value ≠ 0 then rmapIterAllRemoveElem P E p w it else (it, p, w))

def visits (P : Platform) (E : Ralc σ) : List Bool → RMap → World σ → IterAll →
    List (Nat × List UInt8) × IterAll × RMap × World σ
  | [], p, w, it => ([], it, p, w)
  | remove :: choices, p, w, it =>
    let (returned, it, p, w) := visit P E remove p w it
    let (more, after) := visits P E choices p w it
    (returned :: more, after)

def removals (choices : List Bool) (es : List α) : List α :=
  ((es.zip choices).filter Prod.snd).map Prod.fst

@[simp] theorem removals_nil : removals choices ([] : List α) = [] := by simp [removals]
@[simp] theorem removals_none {es : List α} : removals [] es = [] := by simp [removals]
@[simp] theorem removals_cons {e : α} {es : List α} : removals (remove :: choices) (e :: es) =
    (if remove then e :: removals choices es else removals choices es) := by
  cases remove <;> simp [removals]

theorem removals_map (g : α → β) (choices : List Bool) (es : List α) :
    removals choices (es.map g) = (removals choices es).map g := by
  induction es generalizing choices with
  | nil => simp
  | cons e es ih =>
    cases choices with
    | nil => simp
    | cons remove choices => cases remove <;> simp [ih]

theorem Elem.cell_ne_zero : e.cell P ≠ 0 := by
  have header := sizeofHeader_le (P := P)
  have width := P.sizeT_ge
  rw [sizeofHeader] at header
  rw [Elem.cell]
  omega

/-- Rounds from anywhere: the elements that are left come in order, then NULL. -/
theorem visits_cases (serves : Serves P E eo ok limit)
    (choices : List Bool) (holds : Holds P ok bo eo f equals p w L chains)
    (stands : Stands P p.buckets p.bucketCount chains it tail)
    (left : remaining p.bucketCount chains it tail = rest) :
    ∃ returned it' c w' L' chains', visits P E choices p w it = (returned, it', { p with count := c }, w') ∧
      returned = (rest.take choices.length).map (fun e => (e.cell P, e.key)) ++
        List.replicate (choices.length - rest.length) (0, []) ∧
      Holds P ok bo eo f equals { p with count := c } w' L' chains' ∧
      c + (removals choices rest).length = p.count ∧
      (∀ j < p.bucketCount, chains' j =
        (chains j).filter fun x => x.addr ∉ (removals choices rest).map Elem.addr) ∧
      ∀ x ∈ members p.bucketCount chains', Set.EqOn w.mem w'.mem (x.body P) := by
  induction choices generalizing p w L chains it tail rest with
  | nil =>
    refine ⟨[], it, p.count, w, L, chains, rfl, by simp, holds, by simp, by simp, fun _ _ _ _ => rfl⟩
  | cons remove choices ih =>
    have next := next_cases serves holds stands
    rw [left] at next
    cases rest with
    | nil =>
      obtain ⟨it', result, stands', left', -⟩ := next
      obtain ⟨returned, it'', c, w', L', chains', more, list, holds', count, same, bodies⟩ :=
        ih holds stands' left'
      refine ⟨(0, []) :: returned, it'', c, w', L', chains', ?_, ?_, holds', by simpa using count,
        by simpa using same, bodies⟩
      · simp [visits, visit, result, more]
      · simp [list, List.replicate_succ]
    | cons e rest =>
      obtain ⟨it', tail', result, stands', last, left'⟩ := next
      have some := Elem.cell_ne_zero (P := P) (e := e)
      cases remove with
      | false =>
        obtain ⟨returned, it'', c, w', L', chains', more, list, holds', count, same, bodies⟩ :=
          ih holds stands' left'
        refine ⟨(e.cell P, e.key) :: returned, it'', c, w', L', chains', ?_, ?_, holds',
          by simpa using count, by simpa using same, bodies⟩
        · simp [visits, visit, result, more]
        · simp [list]
      | true =>
        obtain ⟨it₁, w₁, L₁, chains₁, removed, holds₁, stands₁, -, left₁, ⟨es, whole, es_eq, bodies₁⟩,
          same₁⟩ := removeElem_cases serves holds stands' last
        obtain ⟨returned, it'', c, w', L', chains', more, list, holds', count, same, bodies⟩ :=
          ih holds₁ stands₁ (left₁.trans left')
        refine ⟨(e.cell P, e.key) :: returned, it'', c, w', L', chains', ?_, ?_, holds', ?_, ?_, ?_⟩
        · simp [visits, visit, result, some, removed, more]
        · simp [list]
        · have before := holds.count
          have after := holds₁.count
          have length := whole.length_eq
          dsimp only at after count
          rw [es_eq] at after
          rw [List.length_cons] at length
          rw [removals_cons, if_pos rfl, List.length_cons]
          omega
        · intro j low
          rw [same j low, same₁ j low, List.filter_filter, removals_cons, if_pos rfl, List.map_cons]
          apply List.filter_congr
          intro x _
          simp only [List.mem_cons, not_or, ne_eq, Bool.decide_and, Bool.and_comm]
        · intro x member
          obtain ⟨j, low, listed⟩ := mem_members.mp member
          rw [same j low] at listed
          have kept : x ∈ es := es_eq ▸ mem_members.mpr ⟨j, low, List.mem_of_mem_filter listed⟩
          exact (bodies₁ x kept).trans (bodies x member)

end Ratlib.Rmap
