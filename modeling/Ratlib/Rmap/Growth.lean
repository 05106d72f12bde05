import Ratlib.Rmap.Table

/-! `rehash`: every element is moved to the chain of its hash value in a larger table,
while the old chains are read. -/
namespace Ratlib.Rmap

variable {P : Platform} {σ : Type u} {ι : Type v} {A B : Ralc σ} {ok : World σ → Blocks ι → Prop}
  {owner bo eo : ι} {f : List UInt8 → UInt32} {equals : List UInt8 → List UInt8 → Bool}
  {p p' : RMap} {w w' : World σ} {L L' : Blocks ι} {chains cs : Nat → List Elem}
  {m m' m'' : Mem} {base n i : Nat} {es rest : List Elem} {e : Elem}

/-- Between two memories only the cells of a table were written. -/
def Relinked (P : Platform) (base n : Nat) (es : List Elem) (m m' : Mem) : Prop :=
  ∀ x, (∀ c, IsCell P base n es c → x < c ∨ c + P.sizeT ≤ x) → m' x = m x

theorem Relinked.trans (first : Relinked P base n es m m') (second : Relinked P base n es m' m'') :
    Relinked P base n es m m'' := fun x away => (second x away).trans (first x away)

theorem Relinked.mono (relinked : Relinked P base n rest m m') (fewer : ∀ e ∈ rest, e ∈ es) :
    Relinked P base n es m m' := by
  refine fun x away => relinked x fun c cell => away c ?_
  rcases cell with bucket | ⟨e, member, same⟩
  · exact Or.inl bucket
  · exact Or.inr ⟨e, fewer e member, same⟩

theorem Relinked.get (relinked : Relinked P base n es m m')
    (apart : ∀ c, IsCell P base n es c → d + P.sizeT ≤ c ∨ c + P.sizeT ≤ d) :
    P.get m' d = P.get m d := by
  apply Platform.get_congr
  intro x inside
  refine relinked x fun c cell => ?_
  have := apart c cell
  have := inside.1
  have := inside.2
  omega

theorem relinked_put (cell : IsCell P base n es c) : Relinked P base n es m (P.put m c a) :=
  fun _ away => Platform.put_out (away c cell)

/-- The bytes behind the `next` of an element stay. -/
theorem Relinked.body (relinked : Relinked P base n rest m m')
    (housed : Housed P L bo eo base n es) (separate : L.Separate) (fewer : ∀ e ∈ rest, e ∈ es)
    (member : e ∈ es) : Set.EqOn m m' (e.body P) := by
  intro x inside
  exact (relinked.mono fewer x fun c cell => housed.cell_body separate cell member inside).symm

section Relink
variable {f : List UInt8 → UInt32} {nb n' : Nat}

def place (P : Platform) (f : List UInt8 → UInt32) (n : Nat) (e : Elem) : Nat :=
  bucketIndex P (f e.key) n

/-- Moving one element to the front of its new chain. -/
theorem relink_one (housed : Housed P L bo eo nb n' es) (separate : L.Separate)
    (small : e.addr ≤ P.sizeMax) (member : e ∈ es) (inside : place P f n' e < n')
    (within : ∀ j < n', ∀ x ∈ cs j, x ∈ es) (apart : ∀ j < n', ∀ x ∈ cs j, x.addr ≠ e.addr)
    (linked : ∀ j < n', Chain (P.get m) 0 (bucket P nb j) ((cs j).map Elem.addr)) :
    let cell := bucket P nb (place P f n' e)
    let m' := P.put (P.put m e.addr (P.get m cell)) cell e.addr
    (∀ j < n', Chain (P.get m') 0 (bucket P nb j)
      ((Function.update cs (place P f n' e) (e :: cs (place P f n' e)) j).map Elem.addr)) ∧
      ∀ d, IsCell P nb n' es d → d ≠ e.addr → d ≠ cell → P.get m' d = P.get m d := by
  intro cell m'
  have here : IsCell P nb n' es e.addr := Or.inr ⟨e, member, rfl⟩
  have there : IsCell P nb n' es cell := Or.inl ⟨_, inside, rfl⟩
  have get : ∀ d, IsCell P nb n' es d → P.get m' d =
      if d = cell then e.addr else if d = e.addr then P.get m cell else P.get m d := by
    intro d target
    rw [housed.get_put separate there target small,
      housed.get_put separate here target (Platform.get_le ..)]
  have others : ∀ d, IsCell P nb n' es d → d ≠ e.addr → d ≠ cell → P.get m' d = P.get m d := by
    intro d target other other'
    rw [get d target, if_neg other', if_neg other]
  refine ⟨fun j low => ?_, others⟩
  have elems : ∀ d ∈ (cs j).map Elem.addr, P.get m' d = P.get m d := by
    intro d listed
    obtain ⟨x, linked, rfl⟩ := List.mem_map.mp listed
    have known := within j low x linked
    refine others _ (Or.inr ⟨x, known, rfl⟩) (apart j low x linked) ?_
    exact (housed.bucket_ne separate inside known).symm
  by_cases same : j = place P f n' e
  · subst same
    rw [Function.update_self, List.map_cons]
    refine (linked _ low).push ?_ ?_ elems
    · rw [get _ there, if_pos rfl]
    · rw [get _ here, if_neg (housed.bucket_ne separate inside member).symm, if_pos rfl]
  · rw [Function.update_of_ne same]
    refine (linked j low).congr fun d listed => ?_
    rcases List.mem_cons.mp listed with rfl | listed
    · refine others _ (Or.inl ⟨j, low, rfl⟩) (housed.bucket_ne separate low member) ?_
      exact fun equal => same (bucket_inj.mp equal)
    · exact elems d listed

/-- The inner loop moves the rest of an old chain. -/
theorem relinkChain_cases (housed : Housed P L bo eo nb n' es) (separate : L.Separate)
    (bounds : ∀ e ∈ es, e.addr ≠ 0 ∧ e.addr ≤ P.sizeMax) (index : ∀ e ∈ rest, place P f n' e < n')
    (sub : ∀ e ∈ rest, e ∈ es) (nodup : (rest.map Elem.addr).Nodup)
    (path : Path (P.get m) cur (rest.map Elem.addr) 0) (stored : ∀ e ∈ rest, Stored P m (f e.key) e)
    (within : ∀ j < n', ∀ x ∈ cs j, x ∈ es)
    (apart : ∀ j < n', ∀ x ∈ cs j, ∀ e ∈ rest, x.addr ≠ e.addr)
    (linked : ∀ j < n', Chain (P.get m) 0 (bucket P nb j) ((cs j).map Elem.addr))
    (enough : rest.length < fuel) :
    ∃ m', relinkChain P nb n' fuel m cur = some m' ∧ Relinked P nb n' rest m m' ∧
      ∀ j < n', Chain (P.get m') 0 (bucket P nb j) ((spread (place P f n') rest cs j).map Elem.addr) := by
  induction rest generalizing m cur cs fuel with
  | nil =>
    obtain ⟨fuel, rfl⟩ := Nat.exists_eq_succ_of_ne_zero (Nat.ne_zero_of_lt enough)
    have null : cur = 0 := path
    exact ⟨m, by rw [relinkChain, if_pos null], fun _ _ => rfl, linked⟩
  | cons e rest ih =>
    obtain ⟨fuel, rfl⟩ := Nat.exists_eq_succ_of_ne_zero (Nat.ne_zero_of_lt enough)
    obtain ⟨rfl, path⟩ := path
    obtain ⟨fresh, nodup⟩ := List.nodup_cons.mp nodup
    have member := sub e List.mem_cons_self
    have inside := index e List.mem_cons_self
    have others : ∀ x ∈ rest, x.addr ≠ e.addr :=
      fun x listed same => fresh (same ▸ List.mem_map_of_mem listed)
    obtain ⟨moved, kept⟩ := relink_one housed separate (bounds e member).2 member inside within
      (fun j low x listed => apart j low x listed e List.mem_cons_self) linked
    have here : IsCell P nb n' es e.addr := Or.inr ⟨e, member, rfl⟩
    have there : IsCell P nb n' es (bucket P nb (place P f n' e)) := Or.inl ⟨_, inside, rfl⟩
    rw [relinkChain, if_neg (bounds e member).1, (stored e List.mem_cons_self).hash]
    change ∃ m', relinkChain P nb n' fuel (P.put (P.put m e.addr
      (P.get m (bucket P nb (place P f n' e)))) (bucket P nb (place P f n' e)) e.addr)
        (P.get m e.addr) = some m' ∧ _
    have wrote : Relinked P nb n' (e :: rest) m (P.put (P.put m e.addr
        (P.get m (bucket P nb (place P f n' e)))) (bucket P nb (place P f n' e)) e.addr) :=
      (relinked_put (Or.inr ⟨e, List.mem_cons_self, rfl⟩)).trans
        (relinked_put (Or.inl ⟨_, inside, rfl⟩))
    generalize P.put (P.put m e.addr _) _ e.addr = m₁ at moved kept wrote ⊢
    have path₁ : Path (P.get m₁) (P.get m e.addr) (rest.map Elem.addr) 0 := by
      refine path.congr fun d listed => ?_
      obtain ⟨x, remains, rfl⟩ := List.mem_map.mp listed
      have known := sub x (List.mem_cons_of_mem e remains)
      exact kept _ (Or.inr ⟨x, known, rfl⟩) (others x remains)
        (housed.bucket_ne separate inside known).symm
    have stored₁ : ∀ x ∈ rest, Stored P m₁ (f x.key) x := by
      intro x listed
      have known := sub x (List.mem_cons_of_mem e listed)
      exact (stored x (List.mem_cons_of_mem e listed)).congr (housed.fits x known)
        (wrote.body housed separate sub known)
    have within₁ : ∀ j < n', ∀ x ∈ Function.update cs (place P f n' e) (e :: cs (place P f n' e)) j,
        x ∈ es := by
      intro j low x listed
      rcases mem_push listed with ⟨rfl, -⟩ | old
      · exact member
      · exact within j low x old
    have apart₁ : ∀ j < n', ∀ x ∈ Function.update cs (place P f n' e) (e :: cs (place P f n' e)) j,
        ∀ r ∈ rest, x.addr ≠ r.addr := by
      intro j low x listed r remains
      rcases mem_push listed with ⟨rfl, -⟩ | old
      · exact (others r remains).symm
      · exact apart j low x old r (List.mem_cons_of_mem e remains)
    obtain ⟨m', result, relinked, final⟩ :=
      ih (fun x listed => index x (List.mem_cons_of_mem e listed))
        (fun x listed => sub x (List.mem_cons_of_mem e listed)) nodup path₁ stored₁ within₁ apart₁
        moved (Nat.lt_of_succ_lt_succ enough)
    exact ⟨m', result, wrote.trans (relinked.mono fun x => List.mem_cons_of_mem e), final⟩

/-- The buckets of one array are no buckets of another. -/
theorem arrays_apart (new : Housed P L bo eo nb n' es) (old : Housed P L bo eo base n es)
    (different : nb ≠ base) (separate : L.Separate) (low : j < n') (low' : k < n) :
    bucket P base k + P.sizeT ≤ bucket P nb j ∨ bucket P nb j + P.sizeT ≤ bucket P base k := by
  obtain ⟨size, held, room⟩ := new.array (by omega)
  obtain ⟨size', held', room'⟩ := old.array (by omega)
  have apart := separate _ _ _ _ held held' different
  have := bucket_bounds P nb low
  have := bucket_bounds P base low'
  dsimp only at apart
  omega

/-- An old chain stays as it is while the elements of others move to the new array. -/
theorem Relinked.chain (relinked : Relinked P nb n' es₀ m m') (new : Housed P L bo eo nb n' es)
    (old : Housed P L bo eo base N es) (different : nb ≠ base) (separate : L.Separate)
    (moved : ∀ e ∈ es₀, e ∈ es) (low : k < N) (known : ∀ x ∈ rest, x ∈ es)
    (others : ∀ x ∈ rest, ∀ e ∈ es₀, x.addr ≠ e.addr)
    (linked : Chain (P.get m) 0 (bucket P base k) (rest.map Elem.addr)) :
    Chain (P.get m') 0 (bucket P base k) (rest.map Elem.addr) := by
  refine linked.congr fun d listed => relinked.get fun c cell => ?_
  rcases List.mem_cons.mp listed with rfl | listed <;>
    rcases cell with ⟨j, inside, rfl⟩ | ⟨e, member, rfl⟩
  · exact arrays_apart new old different separate inside low
  · exact old.cell_apart separate (Or.inl ⟨k, low, rfl⟩) (Or.inr ⟨e, moved e member, rfl⟩)
      (old.bucket_ne separate low (moved e member))
  · obtain ⟨x, remains, rfl⟩ := List.mem_map.mp listed
    exact new.cell_apart separate (Or.inr ⟨x, known x remains, rfl⟩) (Or.inl ⟨j, inside, rfl⟩)
      (new.bucket_ne separate inside (known x remains)).symm
  · obtain ⟨x, remains, rfl⟩ := List.mem_map.mp listed
    exact new.cell_apart separate (Or.inr ⟨x, known x remains, rfl⟩)
      (Or.inr ⟨e, moved e member, rfl⟩) (others x remains e member)

/-- The outer loop moves the chains from the bucket `i` on. -/
theorem relinkBuckets_cases (new : Housed P L bo eo nb n' es)
    (old : Housed P L bo eo p.buckets N es) (different : nb ≠ p.buckets) (separate : L.Separate)
    (bounds : ∀ e ∈ es, e.addr ≠ 0 ∧ e.addr ≤ P.sizeMax) (index : ∀ e ∈ es, place P f n' e < n')
    (sub : ∀ k < N, ∀ x ∈ chains k, x ∈ es) (range : i + n ≤ N)
    (nodup : (((List.range' i n).flatMap chains).map Elem.addr).Nodup)
    (linked : ∀ k, i ≤ k → k < i + n →
      Chain (P.get m) 0 (bucket P p.buckets k) ((chains k).map Elem.addr))
    (stored : ∀ e ∈ (List.range' i n).flatMap chains, Stored P m (f e.key) e)
    (within : ∀ j < n', ∀ x ∈ cs j, x ∈ es)
    (apart : ∀ j < n', ∀ x ∈ cs j, ∀ e ∈ (List.range' i n).flatMap chains, x.addr ≠ e.addr)
    (linked' : ∀ j < n', Chain (P.get m) 0 (bucket P nb j) ((cs j).map Elem.addr))
    (enough : ∀ k < N, (chains k).length ≤ p.count) :
    ∃ m', relinkBuckets P p nb n' n i m = some m' ∧
      Relinked P nb n' ((List.range' i n).flatMap chains) m m' ∧
      ∀ j < n', Chain (P.get m') 0 (bucket P nb j)
        ((spread (place P f n') ((List.range' i n).flatMap chains) cs j).map Elem.addr) := by
  induction n generalizing i m cs with
  | zero => exact ⟨m, rfl, fun _ _ => rfl, linked'⟩
  | succ n ih =>
    have here : i < N := by omega
    rw [List.range'_succ, List.flatMap_cons] at nodup stored apart ⊢
    rw [List.map_append, List.nodup_append'] at nodup
    obtain ⟨nodup, nodup', disjoint⟩ := nodup
    have first := fun x listed => sub i here x listed
    have later : ∀ x ∈ (List.range' (i + 1) n).flatMap chains, x ∈ es := by
      intro x listed
      obtain ⟨k, inside, listed⟩ := List.mem_flatMap.mp listed
      have := List.mem_range'_1.mp inside
      exact sub k (by omega) x listed
    have others : ∀ x ∈ chains i, ∀ r ∈ (List.range' (i + 1) n).flatMap chains, x.addr ≠ r.addr :=
      fun x listed r remains same =>
        disjoint (List.mem_map_of_mem listed) (same ▸ List.mem_map_of_mem remains)
    obtain ⟨m₁, result, relinked, moved⟩ := relinkChain_cases new separate bounds
      (fun e listed => index e (first e listed)) first nodup (linked i (Nat.le_refl _) (by omega))
      (fun e listed => stored e (List.mem_append_left _ listed)) within
      (fun j low x listed e remains => apart j low x listed e (List.mem_append_left _ remains)) linked'
      (Nat.lt_succ_of_le (enough i here))
    have kept : ∀ k, i + 1 ≤ k → k < i + 1 + n →
        Chain (P.get m₁) 0 (bucket P p.buckets k) ((chains k).map Elem.addr) := by
      intro k low high
      have there : k < N := by omega
      refine relinked.chain new old different separate first there (sub k there) ?_
        (linked k (by omega) (by omega))
      intro x remains e listed
      have behind : x ∈ (List.range' (i + 1) n).flatMap chains :=
        List.mem_flatMap.mpr ⟨k, List.mem_range'_1.mpr ⟨low, by omega⟩, remains⟩
      exact (others e listed x behind).symm
    have stored₁ : ∀ e ∈ (List.range' (i + 1) n).flatMap chains, Stored P m₁ (f e.key) e :=
      fun e listed => (stored e (List.mem_append_right _ listed)).congr (new.fits e (later e listed))
        (relinked.body new separate first (later e listed))
    have within₁ : ∀ j < n', ∀ x ∈ spread (place P f n') (chains i) cs j, x ∈ es := by
      intro j low x listed
      rcases mem_spread listed with moved | before
      · exact first x moved
      · exact within j low x before
    have apart₁ : ∀ j < n', ∀ x ∈ spread (place P f n') (chains i) cs j,
        ∀ e ∈ (List.range' (i + 1) n).flatMap chains, x.addr ≠ e.addr := by
      intro j low x listed e remains
      rcases mem_spread listed with moved | before
      · exact others x moved e remains
      · exact apart j low x before e (List.mem_append_right _ remains)
    obtain ⟨m', rest, relinked', final⟩ := ih (by omega) nodup' kept stored₁ within₁ apart₁ moved
    refine ⟨m', ?_, ?_, ?_⟩
    · rw [relinkBuckets, result]
      exact rest
    · exact (relinked.mono fun x => List.mem_append_left _).trans
        (relinked'.mono fun x => List.mem_append_right _)
    · rw [spread_append]
      exact final

end Relink

/-- The array and the headers of the elements fit into memory together. -/
theorem Holds.total_le (serves : Serves P A owner ok limit)
    (holds : Holds P ok bo eo f equals p w L chains) (nonempty : p.bucketCount ≠ 0) :
    p.bucketCount * P.sizeT + p.count * (3 * P.sizeT) ≤ P.sizeMax := by
  let es := (members p.bucketCount chains).map Elem.addr
  let size := fun a => if a = p.buckets then p.bucketCount * P.sizeT else 3 * P.sizeT
  have outside : p.buckets ∉ es.toFinset := by
    intro member
    obtain ⟨e, listed, same⟩ := List.mem_map.mp (List.mem_toFinset.mp member)
    exact holds.housed.apart e listed same
  have header : 3 * P.sizeT ≤ headerSize P := sizeofHeader_le
  obtain ⟨total, array, room⟩ := holds.housed.array nonempty
  have blocks : ∀ a ∈ insert p.buckets es.toFinset, ∃ block, L a = some block ∧ size a ≤ block.size := by
    intro a member
    rcases Finset.mem_insert.mp member with rfl | member
    · exact ⟨_, array, by simpa [size] using room⟩
    · have other : a ≠ p.buckets := fun same => outside (same ▸ member)
      obtain ⟨e, listed, rfl⟩ := List.mem_map.mp (List.mem_toFinset.mp member)
      obtain ⟨given, held, large⟩ := holds.housed.held e listed
      have small : size e.addr = 3 * P.sizeT := if_neg other
      rw [Elem.extent] at large
      exact ⟨_, held, by dsimp only; omega⟩
  have bound : ∑ a ∈ insert p.buckets es.toFinset, size a ≤ P.sizeMax := by
    refine (serves.separate holds.ok).total_le _ size blocks fun a member => ?_
    obtain ⟨block, held, fits⟩ := blocks a member
    have inside := serves.bounds holds.ok held
    omega
  have sizes : ∀ a ∈ es.toFinset, size a = 3 * P.sizeT :=
    fun a member => if_neg fun same : a = p.buckets => outside (same ▸ member)
  have length : es.toFinset.card = p.count := by
    rw [List.toFinset_card_of_nodup holds.housed.nodup, holds.count, List.length_map]
  rwa [Finset.sum_insert outside, Finset.sum_congr rfl sizes, Finset.sum_const, length,
    Nat.nsmul_eq_mul, show size p.buckets = p.bucketCount * P.sizeT from if_pos rfl] at bound

/-- The larger array does not wrap: a full table leaves room for it. -/
theorem Holds.grown_le (serves : Serves P A owner ok limit)
    (holds : Holds P ok bo eo f equals p w L chains)
    (full : p.count ≥ p.bucketCount / 2 + p.bucketCount / 4) :
    P.sizeT * grownCount p.bucketCount ≤ P.sizeMax ∧ grownCount p.bucketCount ≤ P.sizeMax := by
  have width := P.sizeT_cases
  have large := P.sizeMax_ge
  have bytes : P.sizeT * grownCount p.bucketCount ≤ P.sizeMax := by
    by_cases nonempty : p.bucketCount ≠ 0
    · have total := holds.total_le serves nonempty
      obtain ⟨k, low, size⟩ := holds.filed.size.resolve_left nonempty
      obtain ⟨j, rfl⟩ := Nat.exists_eq_add_of_le low
      rw [Nat.pow_add] at size
      rw [grownCount, if_pos nonempty]
      rcases width with width | width <;> rw [width] at total ⊢ <;> omega
    · rw [grownCount, if_neg nonempty, initBucketCount]
      omega
  refine ⟨bytes, ?_⟩
  rcases width with width | width <;> rw [width] at bytes <;> omega

def Rehashed (P : Platform) (ok : World σ → Blocks ι → Prop) (bo eo : ι) (f : List UInt8 → UInt32)
    (equals : List UInt8 → List UInt8 → Bool) (p : RMap) (w : World σ) (L : Blocks ι)
    (chains : Nat → List Elem) : Bool × RMap × World σ → Prop
  | (true, p', w') =>
    p'.bucketCount = grownCount p.bucketCount ∧ p'.count = p.count ∧
      (∃ L' chains', Holds P ok bo eo f equals p' w' L' chains' ∧
        (members p'.bucketCount chains').Perm (members p.bucketCount chains)) ∧
      ∀ e ∈ members p.bucketCount chains, Set.EqOn w.mem w'.mem (e.body P)
  | (false, p', w') => p' = p ∧ Holds P ok bo eo f equals p w' L chains ∧
      Set.EqOn w.mem w'.mem L.bytes

theorem grownCount_size (size : n = 0 ∨ ∃ k, 2 ≤ k ∧ n = 2 ^ k) :
    ∃ k, 2 ≤ k ∧ grownCount n = 2 ^ k := by
  rcases size with rfl | ⟨k, low, rfl⟩
  · exact ⟨2, Nat.le_refl 2, rfl⟩
  · exact ⟨k + 1, by omega, by rw [grownCount, if_pos (Nat.two_pow_pos k).ne', Nat.pow_succ]⟩

/-- The elements of a map, spread over a larger table. -/
theorem Filed.grown (filed : Filed P f equals n chains)
    (index : ∀ e, place P f (grownCount n) e < grownCount n) :
    let chains' := spread (place P f (grownCount n)) (members n chains) fun _ => []
    Filed P f equals (grownCount n) chains' ∧
      (members (grownCount n) chains').Perm (members n chains) := by
  intro chains'
  have same : (members (grownCount n) chains').Perm (members n chains) := by
    have none : members (grownCount n) (fun _ => ([] : List Elem)) = [] := by simp [members]
    have spread : (members (grownCount n) chains').Perm
        (members n chains ++ members (grownCount n) fun _ => []) :=
      spread_members fun e _ => index e
    rwa [none, List.append_nil] at spread
  refine ⟨⟨?_, fun compatible => ?_, Or.inr (grownCount_size filed.size)⟩, same⟩
  · intro i _
    exact spread_placed (by simp) i
  · have symmetric : ∀ {a b : Elem}, ¬equals a.key b.key → ¬equals b.key a.key :=
      fun differs equal => differs (compatible.symm _ _ equal)
    exact (same.pairwise_iff symmetric).mpr (filed.distinct compatible)

/-- A map whose elements a larger array links. -/
theorem Holds.enlarged (holds : Holds P ok bo eo f equals p w L chains)
    (index : ∀ e, place P f (grownCount p.bucketCount) e < grownCount p.bucketCount)
    (after : ok w' L')
    (housed : Housed P L' bo eo nb (grownCount p.bucketCount) (members p.bucketCount chains))
    (owns : Owns L' bo eo nb (grownCount p.bucketCount) (members p.bucketCount chains))
    (linked : ∀ j < grownCount p.bucketCount, Chain (P.get w'.mem) 0 (bucket P nb j)
      ((spread (place P f (grownCount p.bucketCount)) (members p.bucketCount chains)
        (fun _ => []) j).map Elem.addr))
    (bodies : ∀ e ∈ members p.bucketCount chains, Set.EqOn w.mem w'.mem (e.body P)) :
    Rehashed P ok bo eo f equals p w L chains
      (true, { p with buckets := nb, bucketCount := grownCount p.bucketCount }, w') := by
  obtain ⟨filed, same⟩ := holds.filed.grown index
  refine ⟨rfl, rfl, ⟨L', _, ⟨holds.hashes, holds.compares, after, housed.perm same, ?_, ⟨linked, ?_⟩,
    filed, ?_, ?_⟩, same⟩, bodies⟩
  · intro a block held owned
    refine (owns a block held owned).imp_right ?_
    rintro ⟨e, member, rfl⟩
    exact ⟨e, same.mem_iff.mpr member, rfl⟩
  · intro e member
    have known := same.mem_iff.mp member
    exact (holds.table.stored e known).congr (holds.housed.fits e known) (bodies e known)
  · rw [same.length_eq]
    exact holds.count
  · have load := holds.load
    dsimp only
    rw [grownCount]
    split <;> omega

/-- The new array, filled with NULL, beside the old map. -/
theorem Holds.filled (servesB : Serves P B bo ok limit)
    (holds : Holds P ok bo eo f equals p w L chains) (same : Set.EqOn w.mem w₁.mem L.bytes)
    (fresh : L nb = none) (granted : ok w₁ (L.grant nb bo actual)) (room : n' * P.sizeT ≤ actual) :
    let m := w₁.mem.fill nb (P.sizeT * n') 0
    Set.EqOn w.mem m L.bytes ∧ ok { w₁ with mem := m } (L.grant nb bo actual) ∧
      Housed P (L.grant nb bo actual) bo eo nb n' (members p.bucketCount chains) ∧
      ∀ j < n', P.get m (bucket P nb j) = 0 := by
  intro m
  have size : P.sizeT * n' = n' * P.sizeT := Nat.mul_comm ..
  have outside : ∀ x, x < nb ∨ nb + actual ≤ x → m x = w₁.mem x :=
    fun x away => Mem.fill_out (by omega)
  obtain ⟨others, filled⟩ := servesB.fill same fresh granted outside
  refine ⟨others, filled, ⟨fun _ => ?_, ?_, ?_, holds.housed.nodup, holds.housed.fits⟩, ?_⟩
  · exact ⟨actual, Blocks.grant_same, room⟩
  · intro e member
    obtain ⟨given, here, large⟩ := holds.housed.held e member
    exact ⟨given, Blocks.grant_kept fresh here, large⟩
  · intro e member
    obtain ⟨given, here, -⟩ := holds.housed.held e member
    exact Blocks.ne_of_fresh here fresh
  · intro j inside
    have := bucket_bounds P nb inside
    exact Mem.load_fill_zero (by omega)

theorem Housed.release (housed : Housed P L bo eo base n es) (other : a ≠ base)
    (apart : ∀ e ∈ es, e.addr ≠ a) : Housed P (L.release a) bo eo base n es where
  array nonempty := by
    rw [Blocks.release_other other.symm]
    exact housed.array nonempty
  held e member := by
    rw [Blocks.release_other (apart e member)]
    exact housed.held e member
  apart := housed.apart
  nodup := housed.nodup
  fits := housed.fits

/-- With a new array, the blocks are the old array, the new one and the elements. -/
theorem Owns.granted (owns : Owns L bo eo base n es) (larger : n' ≠ 0) :
    ∀ a block, L.grant nb bo actual a = some block → block.owner = bo ∨ block.owner = eo →
      (n ≠ 0 ∧ a = base) ∨ (n' ≠ 0 ∧ a = nb) ∨ ∃ e ∈ es, a = e.addr := by
  intro a block held owned
  rcases Blocks.grant_some held with ⟨same, -⟩ | ⟨-, held⟩
  · exact Or.inr (Or.inl ⟨larger, same⟩)
  · exact (owns a block held owned).imp_right Or.inr

/-- While `rehash` runs the elements lie beside both arrays. -/
theorem Housed.beside (old : Housed P L bo eo base n es) (nonempty : n ≠ 0) (fresh : L nb = none)
    (new : Housed P (L.grant nb bo actual) bo eo nb n' es) :
    nb ≠ base ∧ Housed P (L.grant nb bo actual) bo eo base n es := by
  obtain ⟨size, array, within⟩ := old.array nonempty
  have different : nb ≠ base := (Blocks.ne_of_fresh array fresh).symm
  exact ⟨different, { new with
    array := fun _ => ⟨size, by rwa [Blocks.grant_other different.symm], within⟩
    apart := old.apart }⟩

theorem Holds.addr_bounds (serves : Serves P B bo ok limit) (holds : Holds P ok bo eo f equals p w L chains)
    (member : e ∈ members p.bucketCount chains) : e.addr ≠ 0 ∧ e.addr ≤ P.sizeMax := by
  obtain ⟨nonnull, high⟩ := holds.nonnull serves member
  exact ⟨nonnull, by omega⟩

/-- Both loops of `rehash`: the new array links every element, and only links were written. -/
theorem Holds.relinks (serves : Serves P B bo ok limit)
    (holds : Holds P ok bo eo f equals p w L chains) (nonempty : p.bucketCount ≠ 0)
    (index : ∀ e, place P f n' e < n') (fresh : L nb = none)
    (kept : Set.EqOn w.mem w₁.mem L.bytes) (filled : ok w₁ (L.grant nb bo actual))
    (housed : Housed P (L.grant nb bo actual) bo eo nb n' (members p.bucketCount chains))
    (empty : ∀ j < n', P.get w₁.mem (bucket P nb j) = 0) :
    ∃ m, relinkBuckets P p nb n' p.bucketCount 0 w₁.mem = some m ∧
      ok { w₁ with mem := m } (L.grant nb bo actual) ∧
      (∀ j < n', Chain (P.get m) 0 (bucket P nb j)
        ((spread (place P f n') (members p.bucketCount chains) (fun _ => []) j).map Elem.addr)) ∧
      ∀ e ∈ members p.bucketCount chains, Set.EqOn w₁.mem m (e.body P) := by
  have separate := serves.separate filled
  obtain ⟨different, old⟩ := holds.housed.beside nonempty fresh housed
  have table := holds.table.congr holds.housed kept
  have bounds := fun e member => holds.addr_bounds serves (e := e) member
  have range : (List.range' 0 p.bucketCount).flatMap chains = members p.bucketCount chains := by
    rw [← List.range_eq_range', members]
  have nodup := holds.housed.nodup
  have stored := table.stored
  rw [← range] at nodup stored
  have empty : ∀ j < n', Chain (P.get w₁.mem) 0 (bucket P nb j) (([] : List Elem).map Elem.addr) :=
    empty
  obtain ⟨m, result, relinked, linked⟩ := relinkBuckets_cases housed old different
    separate bounds (fun e _ => index e) (fun k low x member => mem_members.mpr ⟨k, low, member⟩)
    (by omega) nodup (fun k _ high => table.linked k (by omega)) stored (by simp) (by simp) empty
    (fun k low => holds.count ▸ length_bucket_le low chains)
  rw [range] at relinked linked
  refine ⟨m, result, ?_, linked, fun e member => ?_⟩
  · refine serves.client filled fun x away => (relinked x fun c cell => ?_).symm
    by_contra inside
    exact away (housed.cell_bytes cell (by omega))
  · exact relinked.body housed separate (fun _ => id) member

/-- `rehash` relinks every element, or fails and changes nothing. -/
theorem rehash_cases (serves : Serves P B bo ok limit)
    (holds : Holds P ok bo eo f equals p w L chains) (asserts : GrowAsserts P limit p)
    (full : p.count ≥ p.bucketCount / 2 + p.bucketCount / 4) :
    ∃ result, rehash P B p w (grownCount p.bucketCount) = some result ∧
      Rehashed P ok bo eo f equals p w L chains result := by
  obtain ⟨bytes, small⟩ := holds.grown_le serves full
  have index : ∀ e, place P f (grownCount p.bucketCount) e < grownCount p.bucketCount := by
    obtain ⟨k, low, size⟩ := grownCount_size holds.filed.size
    have nonempty : grownCount p.bucketCount ≠ 0 := size ▸ (Nat.two_pow_pos k).ne'
    exact fun e => bucketIndex_lt small (Or.inr ⟨k, low, size⟩) nonempty _
  have granted := serves.alloc holds.ok (asserts full)
  simp only [rehash, Platform.mul_of_le bytes]
  generalize ralcAlloc B w (P.sizeT * grownCount p.bucketCount) = attempt at granted ⊢
  obtain ⟨reply, w₁⟩ := attempt
  obtain ⟨same, outcome⟩ := granted
  dsimp only at same outcome ⊢
  by_cases null : reply.ptr = 0
  · rw [if_pos null] at outcome
    exact ⟨_, if_pos null, rfl, holds.kept outcome same, same⟩
  rw [if_neg null] at outcome
  rw [if_neg null]
  obtain ⟨actual, -, room, fresh, granted⟩ := outcome
  generalize reply.ptr = nb at fresh granted null ⊢
  rw [Nat.mul_comm] at room
  obtain ⟨kept, filled, housed, empty⟩ := holds.filled serves same fresh granted room
  generalize w₁.mem.fill nb (P.sizeT * grownCount p.bucketCount) 0 = m₁ at kept filled empty ⊢
  have larger : grownCount p.bucketCount ≠ 0 := by
    obtain ⟨k, -, size⟩ := grownCount_size holds.filed.size
    exact size ▸ (Nat.two_pow_pos k).ne'
  by_cases nonempty : p.bucketCount ≠ 0
  · rw [if_pos nonempty]
    obtain ⟨m, result, linkedOk, linked, bodies⟩ :=
      holds.relinks serves nonempty index fresh kept filled housed empty
    rw [result]
    refine ⟨_, rfl, ?_⟩
    obtain ⟨size, array, -⟩ := holds.housed.array nonempty
    obtain ⟨freed, left⟩ := serves.free linkedOk (Blocks.grant_kept fresh array)
    have housed' := housed.release (Blocks.ne_of_fresh array fresh) holds.housed.apart
    have owns : Owns ((L.grant nb bo actual).release p.buckets) bo eo nb (grownCount p.bucketCount)
        (members p.bucketCount chains) := by
      intro a block held owned
      obtain ⟨gone, held⟩ := Blocks.release_some held
      exact (holds.owns.granted larger a block held owned).resolve_left fun array => gone array.2
    refine holds.enlarged index left housed' owns (fun j inside => ?_) fun e member => ?_
    · refine (linked j inside).congr fun c listed => ?_
      have cell : IsCell P nb (grownCount p.bucketCount) (members p.bucketCount chains) c := by
        rcases List.mem_cons.mp listed with rfl | listed
        · exact Or.inl ⟨j, inside, rfl⟩
        · obtain ⟨e, moved, rfl⟩ := List.mem_map.mp listed
          exact Or.inr ⟨e, (mem_spread moved).resolve_right List.not_mem_nil, rfl⟩
      exact (Platform.get_congr fun x inside => freed (housed'.cell_bytes cell inside)).symm
    · exact ((kept.mono (holds.housed.body_bytes member)).trans (bodies e member)).trans
        (freed.mono (housed'.body_bytes member))
  · have none : members p.bucketCount chains = [] := by rw [not_not.mp nonempty]; rfl
    rw [if_neg nonempty]
    have owns : Owns (L.grant nb bo actual) bo eo nb (grownCount p.bucketCount)
        (members p.bucketCount chains) := fun a block held owned =>
      (holds.owns.granted larger a block held owned).resolve_left fun array => nonempty array.1
    refine ⟨_, rfl, holds.enlarged index filled housed owns (fun j inside => ?_) fun e member => ?_⟩
    · rw [none]
      exact empty j inside
    · exact fun x inside => kept (holds.housed.body_bytes member inside)

end Ratlib.Rmap
