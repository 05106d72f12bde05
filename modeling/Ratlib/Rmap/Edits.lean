import Ratlib.Rmap.Growth

/-! Changes of one chain: an element is unlinked, a new one linked in, or one takes the
place of another. All other elements keep their bytes. -/
namespace Ratlib.Rmap

variable {P : Platform} {σ : Type u} {ι : Type v} {A : Ralc σ} {ok : World σ → Blocks ι → Prop}
  {bo eo owner : ι} {f : List UInt8 → UInt32} {equals : List UInt8 → List UInt8 → Bool}
  {p p' : RMap} {w w' : World σ} {L L₀ L' : Blocks ι} {chains : Nat → List Elem}
  {m m' : Mem} {base n i : Nat} {es es' rest xs ys : List Elem} {e : Elem} {old new : Option Elem}

/-- `L₀` are the blocks without that of an element. -/
structure Left (L L₀ : Blocks ι) (old : Option Elem) : Prop where
  separate : L₀.Separate
  others : ∀ a block, L a = some block → (∀ e ∈ old, a ≠ e.addr) → L₀ a = some block
  only : ∀ a block, L₀ a = some block → L a = some block ∧ ∀ e ∈ old, a ≠ e.addr

/-- An element that joins the chain `i` of the rest, in a block of its own. -/
structure Joins (P : Platform) (eo : ι) (f : List UInt8 → UInt32)
    (equals : List UInt8 → List UInt8 → Bool) (n i : Nat) (L₀ L' : Blocks ι) (m : Mem)
    (rest : List Elem) (e : Elem) : Prop where
  fresh : L₀ e.addr = none
  held : ∃ size, L' e.addr = some ⟨eo, size⟩ ∧ e.extent P ≤ size
  fits : e.Fits P
  stored : Stored P m (f e.key) e
  placed : bucketIndex P (f e.key) n = i
  differs : Compatible f equals → ∀ x ∈ rest, ¬equals e.key x.key

theorem Housed.without (housed : Housed P L bo eo base n es) (same : es.Perm (old.toList ++ rest))
    (left : Left L L₀ old) : Housed P L₀ bo eo base n rest := by
  have member : ∀ x ∈ rest, x ∈ es := fun x inside =>
    same.mem_iff.mpr (List.mem_append_right _ inside)
  have gone : ∀ e ∈ old, e ∈ es := fun e inside =>
    same.mem_iff.mpr (List.mem_append_left _ (Option.mem_toList.mpr inside))
  have nodup := (same.map Elem.addr).nodup_iff.mp housed.nodup
  rw [List.map_append, List.nodup_append'] at nodup
  refine ⟨fun nonempty => ?_, fun x inside => ?_, fun x inside => housed.apart x (member x inside),
    nodup.2.1, fun x inside => housed.fits x (member x inside)⟩
  · obtain ⟨size, array, room⟩ := housed.array nonempty
    exact ⟨size, left.others _ _ array fun e inside => (housed.apart e (gone e inside)).symm, room⟩
  · obtain ⟨size, held, room⟩ := housed.held x (member x inside)
    refine ⟨size, left.others _ _ held fun e removed equal => ?_, room⟩
    exact nodup.2.2 (List.mem_map_of_mem (Option.mem_toList.mpr removed))
      (equal ▸ List.mem_map_of_mem inside)

theorem Housed.join (housed : Housed P L₀ bo eo base n rest) (nonempty : n ≠ 0)
    (granted : ∀ a block, L₀ a = some block → L' a = some block)
    (joins : ∀ e ∈ new, Joins P eo f equals n i L₀ L' m rest e) :
    Housed P L' bo eo base n (new.toList ++ rest) := by
  have apart : ∀ e ∈ new, ∀ a block, L₀ a = some block → e.addr ≠ a := fun e inside a block held =>
    (Blocks.ne_of_fresh held (joins e inside).fresh).symm
  obtain ⟨size, array, room⟩ := housed.array nonempty
  refine ⟨fun _ => ⟨size, granted _ _ array, room⟩, ?_, ?_, ?_, ?_⟩
  · intro x inside
    rcases List.mem_append.mp inside with inside | inside
    · exact (joins x (Option.mem_toList.mp inside)).held
    · obtain ⟨size, held, room⟩ := housed.held x inside
      exact ⟨size, granted _ _ held, room⟩
  · intro x inside
    rcases List.mem_append.mp inside with inside | inside
    · exact apart x (Option.mem_toList.mp inside) _ _ array
    · exact housed.apart x inside
  · cases new with
    | none => exact housed.nodup
    | some e =>
      refine List.nodup_cons.mpr ⟨fun listed => ?_, housed.nodup⟩
      obtain ⟨x, inside, same⟩ := List.mem_map.mp listed
      obtain ⟨size, held, -⟩ := housed.held x inside
      exact apart e rfl _ _ held same.symm
  · intro x inside
    rcases List.mem_append.mp inside with inside | inside
    · exact (joins x (Option.mem_toList.mp inside)).fits
    · exact housed.fits x inside

/-- The cell before the rest of a chain. -/
theorem exit_cell (base : Nat) (chains : Nat → List Elem) (inside : i < n) (xs ys : List Elem) :
    IsCell P base n (members n (Function.update chains i (xs ++ ys)))
      (exit (bucket P base i) (xs.map Elem.addr)) := by
  apply chain_cell inside
  rw [Function.update_self, List.map_append, ← List.cons_append]
  exact List.mem_append_left _ (Chain.exit_mem ..)

theorem Housed.chains_apart (housed : Housed P L bo eo base n (members n chains))
    (separate : L.Separate) (inside : i < n) (inside' : j < n) (other : i ≠ j)
    (cell : c ∈ bucket P base i :: (chains i).map Elem.addr)
    (cell' : d ∈ bucket P base j :: (chains j).map Elem.addr) : c ≠ d := by
  have known : ∀ k < n, ∀ x ∈ chains k, x ∈ members n chains :=
    fun k low x member => mem_members.mpr ⟨k, low, member⟩
  rcases List.mem_cons.mp cell with rfl | cell <;> rcases List.mem_cons.mp cell' with rfl | cell'
  · exact fun same => other (bucket_inj.mp same)
  · obtain ⟨y, member, rfl⟩ := List.mem_map.mp cell'
    exact housed.bucket_ne separate inside (known j inside' y member)
  · obtain ⟨x, member, rfl⟩ := List.mem_map.mp cell
    exact (housed.bucket_ne separate inside' (known i inside x member)).symm
  · obtain ⟨x, member, rfl⟩ := List.mem_map.mp cell
    obtain ⟨y, member', rfl⟩ := List.mem_map.mp cell'
    exact members_apart housed.nodup inside inside' other member member'

theorem Housed.chain_nodup (housed : Housed P L bo eo base n (members n chains))
    (separate : L.Separate) (inside : i < n) :
    (bucket P base i :: (chains i).map Elem.addr).Nodup := by
  obtain ⟨before, after, split⟩ := members_split inside chains
  have whole := split (chains i)
  rw [Function.update_eq_self] at whole
  have nodup := housed.nodup
  rw [whole, List.map_append, List.map_append] at nodup
  refine List.nodup_cons.mpr ⟨fun listed => ?_, nodup.of_append_left.of_append_right⟩
  obtain ⟨x, member, same⟩ := List.mem_map.mp listed
  exact housed.bucket_ne separate inside (mem_members.mpr ⟨i, inside, member⟩) same.symm

/-- Turning the cell before a run changes no chain but this one. -/
theorem Table.rebuild (table : Table P f base n chains m) (inside : i < n)
    (split : chains i = xs ++ old.toList ++ ys)
    (housed : Housed P L₀ bo eo base n (members n (Function.update chains i (xs ++ ys))))
    (separate : L₀.Separate) (small : a ≤ P.sizeMax)
    (turned : Set.EqOn (P.put m (exit (bucket P base i) (xs.map Elem.addr)) a) m' L₀.bytes)
    (inner : Path (P.get m') a (new.toList.map Elem.addr) (entry 0 (ys.map Elem.addr))) :
    ∀ j < n, Chain (P.get m') 0 (bucket P base j)
      ((Function.update chains i (xs ++ new.toList ++ ys) j).map Elem.addr) := by
  intro j low
  have here : Function.update chains i (xs ++ ys) i = xs ++ ys := Function.update_self ..
  have nodup := housed.chain_nodup separate inside
  rw [here, List.map_append, ← List.cons_append] at nodup
  have last := Chain.exit_mem (bucket P base i) (xs.map Elem.addr)
  have before : exit (bucket P base i) (xs.map Elem.addr) ∈
      bucket P base i :: (Function.update chains i (xs ++ ys) i).map Elem.addr := by
    rw [here, List.map_append, ← List.cons_append]
    exact List.mem_append_left _ last
  have cell := exit_cell (P := P) base chains inside xs ys
  have get : ∀ c, IsCell P base n (members n (Function.update chains i (xs ++ ys))) c →
      c ≠ exit (bucket P base i) (xs.map Elem.addr) → P.get m' c = P.get m c := by
    intro c there other
    rw [← Platform.get_congr fun x within => turned (housed.cell_bytes there within),
      housed.get_put separate cell there small, if_neg other]
  by_cases same : j = i
  · subst same
    have listed : ∀ c ∈ bucket P base j :: (xs.map Elem.addr ++ ys.map Elem.addr),
        IsCell P base n (members n (Function.update chains j (xs ++ ys))) c := by
      intro c member
      apply chain_cell inside
      rwa [here, List.map_append]
    have chain := table.linked j inside
    rw [split, List.map_append, List.map_append] at chain
    rw [Function.update_self, List.map_append, List.map_append]
    refine chain.splice nodup.of_append_left ?_ inner (fun c member => get c (listed c ?_)) ?_
    · rw [← Platform.get_congr fun x within => turned (housed.cell_bytes cell within),
        Platform.get_put small]
    · rw [← List.cons_append]
      exact List.mem_append_left _ member
    · intro c member
      refine get c (listed c ?_) ?_
      · exact List.mem_cons_of_mem _ (List.mem_append_right _ member)
      · rintro rfl
        exact (List.nodup_append'.mp nodup).2.2 last member
  · rw [Function.update_of_ne same]
    refine (table.linked j low).congr fun c member => ?_
    have member' : c ∈ bucket P base j :: (Function.update chains i (xs ++ ys) j).map Elem.addr := by
      rwa [Function.update_of_ne same]
    exact get c (chain_cell low member') (housed.chains_apart separate low inside same member' before)

/-- What is left stays filed, and what joined is filed where it belongs. -/
theorem Filed.rebuild (filed : Filed P f equals n chains)
    (split : chains i = xs ++ old.toList ++ ys)
    (before : (members n chains).Perm (old.toList ++ rest))
    (behind : (members n (Function.update chains i (xs ++ new.toList ++ ys))).Perm
      (new.toList ++ rest))
    (placed : ∀ e ∈ new, bucketIndex P (f e.key) n = i)
    (differs : Compatible f equals → ∀ e ∈ new, ∀ x ∈ rest, ¬equals e.key x.key) :
    Filed P f equals n (Function.update chains i (xs ++ new.toList ++ ys)) := by
  refine ⟨fun j low x member => ?_, fun compatible => ?_, filed.size⟩
  · by_cases same : j = i
    · subst same
      rw [Function.update_self] at member
      by_cases joined : x ∈ new
      · exact placed x joined
      · apply filed.placed j low x
        rw [split]
        simp only [List.mem_append, Option.mem_toList] at member ⊢
        tauto
    · rw [Function.update_of_ne same] at member
      exact filed.placed j low x member
  · have symmetric : ∀ {a b : Elem}, ¬equals a.key b.key → ¬equals b.key a.key :=
      fun differs equal => differs (compatible.symm _ _ equal)
    rw [behind.pairwise_iff symmetric]
    have distinct := (before.pairwise_iff symmetric).mp (filed.distinct compatible)
    rw [List.pairwise_append] at distinct
    cases new with
    | none => exact distinct.2.1
    | some e => exact List.pairwise_cons.mpr ⟨differs compatible e rfl, distinct.2.1⟩

/-- The array and the elements of before and the one that joined are all there is. -/
theorem Owns.rebuild (owns : Owns L bo eo base n es) (left : Left L L₀ old)
    (only : ∀ a block, L' a = some block → L₀ a = some block ∨ ∃ e ∈ new, a = e.addr)
    (before : es.Perm (old.toList ++ rest)) (behind : es'.Perm (new.toList ++ rest)) :
    Owns L' bo eo base n es' := by
  intro a block held owned
  rcases only a block held with kept | ⟨e, joined, rfl⟩
  · obtain ⟨known, gone⟩ := left.only a block kept
    refine (owns a block known owned).imp_right ?_
    rintro ⟨x, member, rfl⟩
    rcases List.mem_append.mp (before.mem_iff.mp member) with removed | stays
    · exact absurd rfl (gone x (Option.mem_toList.mp removed))
    · exact ⟨x, behind.mem_iff.mpr (List.mem_append_right _ stays), rfl⟩
  · exact Or.inr ⟨e, behind.mem_iff.mpr (List.mem_append_left _ (Option.mem_toList.mpr joined)), rfl⟩

/-- One element of a chain is replaced by another one, or unlinked, or linked in. -/
theorem Holds.rebuild (holds : Holds P ok bo eo f equals p w L chains) (new : Option Elem)
    (inside : i < p.bucketCount) (split : chains i = xs ++ old.toList ++ ys) (left : Left L L₀ old)
    (granted : ∀ a block, L₀ a = some block → L' a = some block)
    (only : ∀ a block, L' a = some block → L₀ a = some block ∨ ∃ e ∈ new, a = e.addr)
    (after : ok w' L') (small : a ≤ P.sizeMax)
    (turned : Set.EqOn (P.put w.mem (exit (bucket P p.buckets i) (xs.map Elem.addr)) a) w'.mem
      L₀.bytes)
    (inner : Path (P.get w'.mem) a (new.toList.map Elem.addr) (entry 0 (ys.map Elem.addr)))
    (rest_eq : members p.bucketCount (Function.update chains i (xs ++ ys)) = rest)
    (joins : ∀ e ∈ new, Joins P eo f equals p.bucketCount i L₀ L' w'.mem rest e)
    (count : c = new.toList.length + rest.length)
    (load : c ≤ p.bucketCount / 2 + p.bucketCount / 4) :
    Holds P ok bo eo f equals { p with count := c } w' L'
        (Function.update chains i (xs ++ new.toList ++ ys)) ∧
      (members p.bucketCount chains).Perm (old.toList ++ rest) ∧
      (members p.bucketCount (Function.update chains i (xs ++ new.toList ++ ys))).Perm
        (new.toList ++ rest) ∧
      ∀ x ∈ rest, Set.EqOn w.mem w'.mem (x.body P) := by
  subst rest_eq
  have before := members_taken inside split
  have behind := @members_around _ _ _ chains xs ys inside new.toList
  have housed := holds.housed.without before left
  have housed' := housed.join (Nat.ne_zero_of_lt inside) granted joins
  have cell := exit_cell (P := P) p.buckets chains inside xs ys
  have bodies : ∀ x ∈ members p.bucketCount (Function.update chains i (xs ++ ys)),
      Set.EqOn w.mem w'.mem (x.body P) := fun x member =>
    (housed.body_put left.separate cell member).trans (turned.mono (housed.body_bytes member))
  have filed := holds.filed.rebuild split before behind (fun e joined => (joins e joined).placed)
    fun compatible e joined => (joins e joined).differs compatible
  refine ⟨⟨holds.hashes, holds.compares, after, housed'.perm behind,
    holds.owns.rebuild left only before behind, ⟨?_, ?_⟩, filed, ?_, load⟩,
    before, behind, bodies⟩
  · exact holds.table.rebuild inside split housed left.separate small turned inner
  · intro x member
    rcases List.mem_append.mp (behind.mem_iff.mp member) with joined | kept
    · exact (joins x (Option.mem_toList.mp joined)).stored
    · have known := before.mem_iff.mpr (List.mem_append_right _ kept)
      exact (holds.table.stored x known).congr (holds.housed.fits x known) (bodies x kept)
  · rw [count, behind.length_eq, List.length_append]

/-- A filled element is linked in, in the place of another one or as a new one. -/
theorem Holds.link (serves : Serves P A owner ok limit)
    (holds : Holds P ok bo eo f equals p w L chains)
    (inside : i < p.bucketCount) (split : chains i = xs ++ old.toList ++ ys) (left : Left L L₀ old)
    (fresh : L₀ e.addr = none) (granted : ok w₁ (L₀.grant e.addr eo actual))
    (room : e.extent P ≤ actual) (fits : e.Fits P) (stored : Stored P w₁.mem (f e.key) e)
    (next : P.get w₁.mem e.addr = entry 0 (ys.map Elem.addr))
    (kept : Set.EqOn w.mem w₁.mem L₀.bytes)
    (placed : bucketIndex P (f e.key) p.bucketCount = i)
    (rest_eq : members p.bucketCount (Function.update chains i (xs ++ ys)) = rest)
    (differs : Compatible f equals → ∀ x ∈ rest, ¬equals e.key x.key) (count : c = 1 + rest.length)
    (load : c ≤ p.bucketCount / 2 + p.bucketCount / 4) :
    let cell := exit (bucket P p.buckets i) (xs.map Elem.addr)
    let w' := { w₁ with mem := P.put w₁.mem cell e.addr }
    Holds P ok bo eo f equals { p with count := c } w' (L₀.grant e.addr eo actual)
        (Function.update chains i (xs ++ [e] ++ ys)) ∧
      (members p.bucketCount chains).Perm (old.toList ++ rest) ∧
      (members p.bucketCount (Function.update chains i (xs ++ [e] ++ ys))).Perm (e :: rest) ∧
      ∀ x ∈ rest, Set.EqOn w.mem w'.mem (x.body P) := by
  intro cell w'
  have held : L₀.grant e.addr eo actual e.addr = some ⟨eo, actual⟩ := Blocks.grant_same
  have housed := holds.housed.without (members_taken inside split) left
  have here : IsCell P p.buckets p.bucketCount _ cell := exit_cell p.buckets chains inside xs ys
  -- The cell lies in an old block, so the new one keeps what it was filled with.
  have filled : ∀ x, e.addr ≤ x ∧ x < e.addr + actual → w'.mem x = w₁.mem x := by
    intro x within
    refine Platform.put_out ?_
    by_contra inside
    have away := (serves.separate granted).away fresh (housed.cell_bytes here (x := x) (by omega))
    omega
  have own : P.sizeT ≤ actual := Nat.le_trans sizeT_le_extent room
  have joins : ∀ x ∈ some e, Joins P eo f equals p.bucketCount i L₀ (L₀.grant e.addr eo actual)
      w'.mem rest x := by
    rintro x ⟨⟩
    refine ⟨fresh, ⟨actual, held, room⟩, fits, stored.congr fits fun x within => ?_, placed, differs⟩
    exact (filled x ⟨Nat.le_of_add_right_le within.1, Nat.lt_of_lt_of_le within.2 (by omega)⟩).symm
  have turned : Set.EqOn (P.put w.mem cell e.addr) w'.mem L₀.bytes := Mem.store_congr kept
  refine holds.rebuild (some e) inside split left ?_ ?_ ?_ ?_ turned ?_ rest_eq joins count load
  · exact fun a block => Blocks.grant_kept fresh
  · intro a block given
    rcases Blocks.grant_some given with ⟨same, -⟩ | ⟨-, held⟩
    · exact Or.inr ⟨e, rfl, same⟩
    · exact Or.inl held
  · refine serves.client granted fun x away => (Platform.put_out ?_).symm
    by_contra inside
    exact away (Blocks.bytes_subset_grant fresh (housed.cell_bytes here (by omega)))
  · have := serves.bounds granted held
    omega
  · refine ⟨rfl, ?_⟩
    rw [← next]
    exact Platform.get_congr fun x within => filled x ⟨within.1, by have := within.2; omega⟩

theorem left_release (separate : L.Separate) : Left L (L.release e.addr) (some e) where
  separate := separate.release
  others a block held other := by rwa [Blocks.release_other (other e rfl)]
  only a block held := by
    obtain ⟨other, held⟩ := Blocks.release_some held
    exact ⟨held, by simpa using other⟩

/-- The cell before an element is turned to the next one, and the element is freed. -/
theorem Holds.unlink (serves : Serves P A eo ok limit)
    (holds : Holds P ok bo eo f equals p w L chains)
    (inside : i < p.bucketCount) (split : chains i = xs ++ [e] ++ ys)
    (rest_eq : members p.bucketCount (Function.update chains i (xs ++ ys)) = rest) :
    let cell := exit (bucket P p.buckets i) (xs.map Elem.addr)
    let w' := ralcFree A { w with mem := P.put w.mem cell (next P w.mem e.addr) } e.addr
    Holds P ok bo eo f equals { p with count := P.sub p.count 1 } w' (L.release e.addr)
        (Function.update chains i (xs ++ ys)) ∧
      (members p.bucketCount chains).Perm (e :: rest) ∧
      ∀ x ∈ rest, Set.EqOn w.mem w'.mem (x.body P) := by
  intro cell w'
  have separate := serves.separate holds.ok
  have before : (members p.bucketCount chains).Perm ((some e).toList ++ _) :=
    members_taken inside split
  have left : Left L (L.release e.addr) (some e) := left_release separate
  have housed := holds.housed.without before left
  have here : IsCell P p.buckets p.bucketCount _ cell := exit_cell p.buckets chains inside xs ys
  have member : e ∈ members p.bucketCount chains := before.mem_iff.mpr List.mem_cons_self
  obtain ⟨size, held, -⟩ := holds.housed.held e member
  have after : (P.get w.mem e.addr) = entry 0 (ys.map Elem.addr) :=
    (holds.before inside (by simpa using split)).2
  have written : ok { w with mem := P.put w.mem cell (next P w.mem e.addr) } L := by
    refine serves.client holds.ok fun x away => (Platform.put_out ?_).symm
    by_contra within
    exact away (Blocks.bytes_release_subset (housed.cell_bytes here (by omega)))
  obtain ⟨freed, kept⟩ := serves.free written held
  have total := before.length_eq
  have load := holds.load
  have count := holds.count
  have small := holds.count_le serves
  rw [List.length_append, Option.toList_some, List.length_singleton, rest_eq] at total
  have one : P.sub p.count 1 = rest.length := by
    rw [Platform.sub_of_le (by omega) (by omega)]
    omega
  have rebuilt := holds.rebuild none inside split left (fun _ _ => id)
    (fun _ _ => Or.inl) kept (Platform.get_le ..) freed after rest_eq (by simp) (by simpa using one) (by omega)
  simp only [Option.toList_none, List.append_nil, List.nil_append] at rebuilt
  exact ⟨rebuilt.1, rebuilt.2.1, rebuilt.2.2.2⟩

end Ratlib.Rmap
