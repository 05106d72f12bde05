import Ratlib.Alloc.Relocation
import Ratlib.Rlist.Nodes

/-! What the functions of rlist do to the sequence of elements, over any allocator that
meets the contract and whichever of its calls fail. -/
namespace Ratlib.Rlist

variable {P : Platform} {σ : Type u} {ι : Type v} {A : Ralc σ} {owner : ι}
  {ok : World σ → Blocks ι → Prop} {w w' : World σ} {L L' : Blocks ι} {p p' : RList}
  {objs xs ys mid mid' : List Nat} {m m' : Mem}

/-- The elements lie in blocks the allocator handed out and has not taken back, and are
linked in both directions. -/
structure Holds (P : Platform) (ok : World σ → Blocks ι → Prop) (owner : ι) (p : RList)
    (w : World σ) (L : Blocks ι) (objs : List Nat) : Prop where
  ok : ok w L
  nodup : objs.Nodup
  held : ∀ q ∈ objs, L (objBlock P q) = some ⟨owner, headerSize P + rlistElemSize P w.mem q⟩
  linked : Linked (rlistNext P w.mem) (rlistPrev P w.mem) 0 p.first p.last objs
  count : p.count = objs.length

theorem sizeofElem_le : sizeofElem P ≤ headerSize P := by
  apply Platform.le_ratAlign
  have := P.sizeT_cases
  have := P.alignment_le
  have := P.sizeMax_ge
  simp only [sizeofElem]
  omega

theorem above_of_held (serves : Serves P A owner ok limit) (before : ok w L)
    (held : L (objBlock P q) = some ⟨owner, headerSize P + size⟩) :
    headerSize P < q ∧ q + size ≤ P.sizeMax := by
  have bounds := serves.bounds before held
  simp only [objBlock] at bounds
  omega

theorem objBlock_ne (above : headerSize P < q) (above' : headerSize P < r) (different : q ≠ r) :
    objBlock P q ≠ objBlock P r := by
  simp only [objBlock]
  omega

theorem nodes_of_held (serves : Serves P A owner ok limit) (before : ok w L)
    (held : ∀ q ∈ objs, ∃ size, L (objBlock P q) = some ⟨owner, headerSize P + size⟩) :
    Nodes P objs where
  above := by
    intro q member
    obtain ⟨size, block⟩ := held q member
    have := above_of_held serves before block
    have := sizeofElem_le (P := P)
    omega
  apart := by
    intro q q_mem r r_mem different
    obtain ⟨size, block⟩ := held q q_mem
    obtain ⟨size', block'⟩ := held r r_mem
    have above := above_of_held serves before block
    have above' := above_of_held serves before block'
    have := sizeofElem_le (P := P)
    have other := objBlock_ne above.1 above'.1 different
    have := serves.separate before _ _ _ _ block block' other
    simp only [objBlock] at this
    omega

theorem Holds.nodes (serves : Serves P A owner ok limit) (holds : Holds P ok owner p w L objs) :
    Nodes P objs :=
  nodes_of_held serves holds.ok fun q member => ⟨_, holds.held q member⟩

theorem Holds.above (serves : Serves P A owner ok limit) (holds : Holds P ok owner p w L objs)
    (member : q ∈ objs) : headerSize P < q :=
  (above_of_held serves holds.ok (holds.held q member)).1

theorem header_bytes (above : headerSize P < q)
    (held : L (objBlock P q) = some ⟨owner, headerSize P + size⟩) :
    Set.Ico (objElem P q) (objElem P q + sizeofElem P) ⊆ L.bytes := by
  intro x inside
  have := sizeofElem_le (P := P)
  have low := inside.1
  have high := inside.2
  simp only [objElem] at low high
  exact Blocks.mem_bytes held (by simp only [objBlock]; omega)

/-- Members of elements whose blocks keep their bytes. -/
theorem field_kept (above : headerSize P < q)
    (held : L (objBlock P q) = some ⟨owner, headerSize P + size⟩) (same : Set.EqOn m m' L.bytes) :
    field P m' (objElem P q) f = field P m (objElem P q) f :=
  (field_congr fun _ inside => same (header_bytes above held inside)).symm

theorem field_eq_elemOf (link : objOf P (field P m e f) = q) : field P m e f = elemOf P q := by
  rw [← link, elemOf_objOf]

/-- A list is rebuilt around a run when the run's neighbours are turned to the ends of
another one. -/
theorem Holds.rebuild (holds : Holds P ok owner p w L (xs ++ mid ++ ys)) (after : ok w' L')
    (nodup : (xs ++ mid' ++ ys).Nodup)
    (blocks : ∀ q ∈ xs ++ ys, L' (objBlock P q) = L (objBlock P q))
    (new : ∀ q ∈ mid', L' (objBlock P q) = some ⟨owner, headerSize P + rlistElemSize P w'.mem q⟩)
    (fields : ∀ q ∈ xs ++ ys, ∀ f, field P w'.mem (objElem P q) f =
      if xs.getLast? = some q ∧ f = .next then a
      else if ys.head? = some q ∧ f = .prev then b else field P w.mem (objElem P q) f)
    (first : p'.first = if xs = [] then objOf P a else p.first)
    (last : p'.last = if ys = [] then objOf P b else p.last)
    (inner : Path (rlistNext P w'.mem) (objOf P a) mid' (entry 0 ys))
    (inner' : Path (rlistPrev P w'.mem) (objOf P b) mid'.reverse (exit 0 xs))
    (count : p'.count = (xs ++ mid' ++ ys).length) :
    Holds P ok owner p' w' L' (xs ++ mid' ++ ys) where
  ok := after
  nodup := nodup
  count := count
  held := by
    intro q member
    have cases : q ∈ xs ++ ys ∨ q ∈ mid' := by
      simp only [List.mem_append] at member ⊢
      tauto
    rcases cases with old | fresh
    · have size := fields q old .size
      simp only [reduceCtorEq, and_false, if_false] at size
      rw [blocks q old, rlistElemSize, size]
      exact holds.held q (mem_around old)
    · exact new q fresh
  linked := by
    have distinct := holds.nodup
    rw [List.append_assoc, List.nodup_append'] at distinct
    obtain ⟨nodup_xs, rest, disjoint⟩ := distinct
    have nodup_ys := (List.nodup_append'.mp rest).2.1
    have apart : ∀ q ∈ xs, q ∉ ys := fun q inside inside' =>
      disjoint inside (List.mem_append_right mid inside')
    refine holds.linked.splice nodup_xs nodup_ys inner inner' first last ?_ ?_
    · intro x member
      have away : ys.head? ≠ some x := fun same => apart x member (List.mem_of_head? same)
      constructor
      · rw [rlistNext, fields x (List.mem_append_left ys member)]
        simp only [and_true, reduceCtorEq, and_false, if_false]
        split <;> rfl
      · rw [rlistPrev, fields x (List.mem_append_left ys member)]
        simp only [reduceCtorEq, and_false, if_false, away, false_and]
        rfl
    · intro y member
      have away : xs.getLast? ≠ some y := fun same => apart y (List.mem_of_getLast? same) member
      constructor
      · rw [rlistPrev, fields y (List.mem_append_right xs member)]
        simp only [and_true, reduceCtorEq, and_false, if_false]
        split <;> rfl
      · rw [rlistNext, fields y (List.mem_append_right xs member)]
        simp only [reduceCtorEq, and_false, if_false, away, false_and]
        rfl

theorem Nodes.length_le (nodes : Nodes P objs) (nodup : objs.Nodup) : objs.length ≤ P.sizeMax := by
  have inside : objs.toFinset ⊆ Finset.Ioc 0 P.sizeMax := by
    intro q member
    have := nodes.above q (List.mem_toFinset.mp member)
    exact Finset.mem_Ioc.mpr (by omega)
  have bound := Finset.card_le_card inside
  rwa [List.toFinset_card_of_nodup nodup, Nat.card_Ioc, Nat.sub_zero] at bound

/-- The list is as its blocks are, by whatever contract these are held. -/
theorem Holds.carried {ok' : World σ → Blocks ι → Prop} (serves : Serves P A owner ok limit)
    (holds : Holds P ok owner p w L objs) (after : ok' w' L) (same : Set.EqOn w.mem w'.mem L.bytes) :
    Holds P ok' owner p w' L objs := by
  have fields : ∀ q ∈ objs, ∀ f, field P w'.mem (objElem P q) f = field P w.mem (objElem P q) f :=
    fun q member f => field_kept (holds.above serves member) (holds.held q member) same
  refine ⟨after, holds.nodup, ?_, holds.linked.congr ?_, holds.count⟩
  · intro q member
    rw [rlistElemSize, fields q member]
    exact holds.held q member
  · intro q member
    exact ⟨congrArg (objOf P) (fields q member .next), congrArg (objOf P) (fields q member .prev)⟩

theorem Nodes.elemOf_le (nodes : Nodes P objs) (inside : ∀ z, near = some z → z ∈ objs) :
    elemOf P (near.getD 0) ≤ P.sizeMax := by
  cases near with
  | none => exact Nat.zero_le _
  | some z =>
    have := nodes.above z (inside z rfl)
    rw [Option.getD_some, elemOf_of this.1, objElem]
    omega

/-- What `rlist_insert` finds before the place of the new element. -/
theorem Holds.before (serves : Serves P A owner ok limit)
    (holds : Holds P ok owner p w L (xs ++ ys))
    (same : ∀ q ∈ xs ++ ys, field P m (objElem P q) .prev = field P w.mem (objElem P q) .prev) :
    (if entry 0 ys ≠ 0 then field P m (elemOf P (entry 0 ys)) .prev else elemOf P p.last) =
      elemOf P (exit 0 xs) := by
  cases ys with
  | nil =>
    have last := holds.linked.last_eq
    rw [List.append_nil] at last
    rw [last]
    rfl
  | cons y ys =>
    have member : y ∈ xs ++ y :: ys := by simp
    have above := ((holds.nodes serves).above y member).1
    have link : rlistPrev P w.mem y = exit 0 xs := holds.linked.at_node.2
    change (if y ≠ 0 then field P m (elemOf P y) .prev else elemOf P p.last) = _
    rw [if_pos (by omega), elemOf_of above, same y member]
    exact field_eq_elemOf link

/-- The stores of `rlist_insert`. -/
def attach (P : Platform) (m : Mem) (xs ys : List Nat) (q size : Nat) : Mem :=
  let e := objElem P q
  let m := turn P (turn P m ys.head? .prev e) xs.getLast? .next e
  let m := setField P m e .prev (elemOf P (exit 0 xs))
  let m := setField P m e .next (elemOf P (entry 0 ys))
  setField P m e .size size

section Attach
variable {q size : Nat}

theorem attach_old (nodes : Nodes P (xs ++ q :: ys)) (fresh : q ∉ xs ++ ys) (small : size ≤ P.sizeMax)
    (member : r ∈ xs ++ ys) : field P (attach P m xs ys q size) (objElem P r) f =
      if xs.getLast? = some r ∧ f = .next then objElem P q
      else if ys.head? = some r ∧ f = .prev then objElem P q else field P m (objElem P r) f := by
  have q_mem : q ∈ xs ++ q :: ys := by simp
  have r_mem : r ∈ xs ++ q :: ys := mem_around_cons member
  have other : r ≠ q := ne_of_mem_of_not_mem member fresh
  have last : ∀ z, xs.getLast? = some z → z ∈ xs ++ q :: ys := last_mem (by simp +contextual)
  have head : ∀ z, ys.head? = some z → z ∈ xs ++ q :: ys := head_mem (by simp +contextual)
  have e_le : objElem P q ≤ P.sizeMax := Nat.le_trans (Nat.sub_le ..) (nodes.above q q_mem).2
  have exit_le : elemOf P (exit 0 xs) ≤ P.sizeMax := nodes.elemOf_le last
  have entry_le : elemOf P (entry 0 ys) ≤ P.sizeMax := nodes.elemOf_le head
  rw [attach, nodes.set r_mem q_mem small, nodes.set r_mem q_mem entry_le,
    nodes.set r_mem q_mem exit_le, turn_field nodes last r_mem e_le,
    turn_field nodes head r_mem e_le]
  simp only [other, false_and, if_false]

theorem attach_new (nodes : Nodes P (xs ++ q :: ys)) (small : size ≤ P.sizeMax) :
    field P (attach P m xs ys q size) (objElem P q) .prev = elemOf P (exit 0 xs) ∧
      field P (attach P m xs ys q size) (objElem P q) .next = elemOf P (entry 0 ys) ∧
        field P (attach P m xs ys q size) (objElem P q) .size = size := by
  have q_mem : q ∈ xs ++ q :: ys := by simp
  have exit_le : elemOf P (exit 0 xs) ≤ P.sizeMax :=
    nodes.elemOf_le (last_mem (by simp +contextual))
  have entry_le : elemOf P (entry 0 ys) ≤ P.sizeMax :=
    nodes.elemOf_le (head_mem (by simp +contextual))
  refine ⟨?_, ?_, ?_⟩
  · rw [attach, nodes.set q_mem q_mem small, nodes.set q_mem q_mem entry_le, nodes.set q_mem q_mem exit_le]
    simp
  · rw [attach, nodes.set q_mem q_mem small, nodes.set q_mem q_mem entry_le]
    simp
  · rw [attach, nodes.set q_mem q_mem small]
    simp

theorem attach_out (nodes : Nodes P (xs ++ q :: ys))
    (outside : ∀ z ∈ xs ++ q :: ys, x < objElem P z ∨ z ≤ x) :
    attach P m xs ys q size x = m x := by
  have q_mem : q ∈ xs ++ q :: ys := by simp
  have last : ∀ z, xs.getLast? = some z → z ∈ xs ++ q :: ys := last_mem (by simp +contextual)
  have head : ∀ z, ys.head? = some z → z ∈ xs ++ q :: ys := head_mem (by simp +contextual)
  rw [attach, nodes.set_out q_mem outside, nodes.set_out q_mem outside,
    nodes.set_out q_mem outside, turn_out nodes last outside, turn_out nodes head outside]

end Attach

theorem objBlock_blockObj : objBlock P (blockObj P block) = block := Nat.add_sub_cancel ..

/-- Stores into the headers of elements are the list's own business. -/
theorem client_headers (serves : Serves P A owner ok limit) (before : ok w L)
    (held : ∀ q ∈ objs, ∃ size, L (objBlock P q) = some ⟨owner, headerSize P + size⟩)
    (outside : ∀ x, (∀ q ∈ objs, x < objElem P q ∨ q ≤ x) → m x = w.mem x) :
    ok { w with mem := m } L := by
  apply serves.client before
  intro x away
  refine (outside x fun q member => ?_).symm
  by_contra inside
  obtain ⟨size, block⟩ := held q member
  have above := above_of_held serves before block
  have := sizeofElem_le (P := P)
  refine away (header_bytes above.1 block ?_)
  simp only [objElem, Set.mem_Ico] at inside ⊢
  omega

/-- A list is rebuilt around one element when its neighbours point to it and it to them. -/
theorem Holds.placed (holds : Holds P ok owner p w L (xs ++ mid ++ ys)) (after : ok w' L')
    (nodes : Nodes P (xs ++ q :: ys)) (distinct : (xs ++ q :: ys).Nodup)
    (blocks : ∀ r ∈ xs ++ ys, L' (objBlock P r) = L (objBlock P r))
    (block : L' (objBlock P q) = some ⟨owner, headerSize P + rlistElemSize P w'.mem q⟩)
    (fields : ∀ r ∈ xs ++ ys, ∀ f, field P w'.mem (objElem P r) f =
      if xs.getLast? = some r ∧ f = .next then objElem P q
      else if ys.head? = some r ∧ f = .prev then objElem P q else field P w.mem (objElem P r) f)
    (prev : field P w'.mem (objElem P q) .prev = elemOf P (exit 0 xs))
    (next : field P w'.mem (objElem P q) .next = elemOf P (entry 0 ys))
    (first : p'.first = if xs = [] then objOf P (objElem P q) else p.first)
    (last : p'.last = if ys = [] then objOf P (objElem P q) else p.last)
    (count : p'.count = (xs ++ q :: ys).length) : Holds P ok owner p' w' L' (xs ++ q :: ys) := by
  have above := nodes.above q (by simp)
  have sub : ∀ z ∈ xs, z ∈ xs ++ q :: ys := by simp +contextual
  have sub' : ∀ z ∈ ys, z ∈ xs ++ q :: ys := by simp +contextual
  rw [← List.singleton_append, ← List.append_assoc] at distinct count ⊢
  refine holds.rebuild after distinct blocks ?_ fields first last ?_ ?_ count
  · intro r member
    obtain rfl := List.mem_singleton.mp member
    exact block
  · rw [objOf_objElem above.1]
    exact ⟨rfl, (congrArg (objOf P) next).trans (nodes.objOf_entry sub')⟩
  · rw [objOf_objElem above.1]
    exact ⟨rfl, (congrArg (objOf P) prev).trans (nodes.objOf_exit sub)⟩

def Unmoved (P : Platform) (m m' : Mem) (objs : List Nat) : Prop :=
  ∀ q ∈ objs, rlistElemSize P m' q = rlistElemSize P m q ∧
    Set.EqOn m m' (Set.Ico q (q + rlistElemSize P m q))

theorem Holds.payload (serves : Serves P A owner ok limit) (holds : Holds P ok owner p w L objs)
    (member : q ∈ objs) : Set.Ico q (q + rlistElemSize P w.mem q) ⊆ L.bytes := by
  intro x inside
  have := holds.above serves member
  have := inside.1
  have := inside.2
  exact Blocks.mem_bytes (holds.held q member) (by simp only [objBlock]; omega)

theorem Holds.unmoved (serves : Serves P A owner ok limit) (holds : Holds P ok owner p w L objs)
    (same : Set.EqOn w.mem m' L.bytes) : Unmoved P w.mem m' objs := fun q member =>
  ⟨field_kept (holds.above serves member) (holds.held q member) same,
    fun _ inside => same (holds.payload serves member inside)⟩

/-- Where some of the blocks are left, so are their elements. -/
theorem Holds.unmoved_rest (serves : Serves P A owner ok limit) (holds : Holds P ok owner p w L objs)
    (among : ∀ r ∈ rest, r ∈ objs) (blocks : ∀ r ∈ rest, L' (objBlock P r) = L (objBlock P r))
    (same : Set.EqOn w.mem m' L'.bytes) : Unmoved P w.mem m' rest := by
  intro r member
  have above := holds.above serves (among r member)
  have held := (blocks r member).trans (holds.held r (among r member))
  refine ⟨field_kept above held same, fun x inside => same ?_⟩
  have := inside.1
  have := inside.2
  exact Blocks.mem_bytes held (by simp only [objBlock]; omega)

theorem off_headers (serves : Serves P A owner ok limit) (before : ok w L)
    (held : ∀ q ∈ objs, ∃ size, L (objBlock P q) = some ⟨owner, headerSize P + size⟩)
    (block : L (objBlock P q) = some ⟨owner, headerSize P + n⟩) (inside : q ≤ x ∧ x < q + n)
    (member : z ∈ objs) : x < objElem P z ∨ z ≤ x := by
  obtain ⟨size, block'⟩ := held z member
  have above := above_of_held serves before block
  have above' := above_of_held serves before block'
  have := sizeofElem_le (P := P)
  by_cases same : q = z
  · exact Or.inr (same ▸ inside.1)
  · have other : objBlock P q ≠ objBlock P z := by
      simp only [objBlock]
      omega
    have := serves.separate before _ _ _ _ block block' other
    simp only [objBlock] at this
    simp only [objElem]
    omega

/-- Stores into headers leave the elements alone. -/
theorem Unmoved.headers (serves : Serves P A owner ok limit) (unmoved : Unmoved P m w.mem xs)
    (before : ok w L)
    (held : ∀ q ∈ objs, ∃ size, L (objBlock P q) = some ⟨owner, headerSize P + size⟩)
    (blocks : ∀ q ∈ xs, L (objBlock P q) = some ⟨owner, headerSize P + rlistElemSize P m q⟩)
    (outside : ∀ x, (∀ q ∈ objs, x < objElem P q ∨ q ≤ x) → m' x = w.mem x)
    (sizes : ∀ q ∈ xs, rlistElemSize P m' q = rlistElemSize P w.mem q) : Unmoved P m m' xs := by
  intro q member
  obtain ⟨size, bytes⟩ := unmoved q member
  refine ⟨(sizes q member).trans size, fun x inside => ?_⟩
  rw [bytes inside]
  exact (outside x fun z => off_headers serves before held (blocks q member) inside).symm

section Insert
variable {q block actual : Nat} {w₁ : World σ}

/-- A new block is no element's, and leaves theirs alone. -/
theorem Holds.fresh (holds : Holds P ok owner p w L objs) (fresh : L block = none) (actual : Nat) :
    blockObj P block ∉ objs ∧
      ∀ r ∈ objs, L.grant block owner actual (objBlock P r) = L (objBlock P r) := by
  constructor
  · intro member
    have held := holds.held _ member
    rw [objBlock_blockObj] at held
    exact Blocks.ne_of_fresh held fresh rfl
  · intro r member
    exact Blocks.grant_other (Blocks.ne_of_fresh (holds.held r member) fresh)

theorem held_around (old : ∀ r ∈ xs ++ ys, ∃ size, L (objBlock P r) = some ⟨owner, headerSize P + size⟩)
    (blocks : ∀ r ∈ xs ++ ys, L' (objBlock P r) = L (objBlock P r))
    (block : L' (objBlock P q) = some ⟨owner, actual⟩) (large : headerSize P ≤ actual) :
    ∀ r ∈ xs ++ q :: ys, ∃ size, L' (objBlock P r) = some ⟨owner, headerSize P + size⟩ := by
  intro r member
  by_cases same : r = q
  · rw [same, block]
    exact ⟨actual - headerSize P, by rw [Nat.add_sub_cancel' large]⟩
  · have around : r ∈ xs ++ ys := by simpa [same] using member
    rw [blocks r around]
    exact old r around

/-- The element in a new block, linked to its neighbours. -/
theorem Holds.attached (serves : Serves P A owner ok limit)
    (holds : Holds P ok owner p w L (xs ++ ys)) (same : Set.EqOn w.mem w₁.mem L.bytes)
    (new : q ∉ xs ++ ys) (after : ok w₁ L') (nodes : Nodes P (xs ++ q :: ys))
    (blocks : ∀ r ∈ xs ++ ys, L' (objBlock P r) = L (objBlock P r))
    (block : L' (objBlock P q) = some ⟨owner, actual⟩)
    (large : headerSize P ≤ actual) (fits : actual ≤ P.sizeMax)
    (first : p'.first = if xs = [] then objOf P (objElem P q) else p.first)
    (last : p'.last = if ys = [] then objOf P (objElem P q) else p.last)
    (count : p'.count = P.add p.count 1) :
    let m := attach P w₁.mem xs ys q (actual - headerSize P)
    rlistElemSize P m q = actual - headerSize P ∧ Unmoved P w.mem m (xs ++ ys) ∧
      Holds P ok owner p' { w₁ with mem := m } L' (xs ++ q :: ys) := by
  intro m
  have room : actual - headerSize P ≤ P.sizeMax := by omega
  have held := held_around (fun r member => ⟨_, holds.held r member⟩) blocks block large
  have distinct : (xs ++ q :: ys).Nodup :=
    List.nodup_middle.mpr (List.nodup_cons.mpr ⟨new, holds.nodup⟩)
  have length := nodes.length_le distinct
  have fields : ∀ r ∈ xs ++ ys, ∀ f,
      field P w₁.mem (objElem P r) f = field P w.mem (objElem P r) f :=
    fun r member f => field_kept (holds.above serves member) (holds.held r member) same
  have old := fun r f => attach_old (r := r) (m := w₁.mem) (f := f) nodes new room
  have out : ∀ x, (∀ r ∈ xs ++ q :: ys, x < objElem P r ∨ r ≤ x) →
      attach P w₁.mem xs ys q (actual - headerSize P) x = w₁.mem x := fun _ => attach_out nodes
  obtain ⟨prev, next, stored⟩ := attach_new (m := w₁.mem) nodes room
  refine ⟨stored, ?_, ?_⟩
  · refine (holds.unmoved serves same).headers serves after held ?_ out ?_
    · intro r member
      rw [blocks r member]
      exact holds.held r member
    · intro r member
      have size := old r .size member
      simp only [reduceCtorEq, and_false, if_false] at size
      exact size
  · have holds : Holds P ok owner p w L (xs ++ [] ++ ys) := by simpa using holds
    refine holds.placed (client_headers serves after held out) nodes distinct blocks ?_ ?_ prev next
      first last ?_
    · rw [block, rlistElemSize, stored, Nat.add_sub_cancel' large]
    · intro r member f
      rw [← fields r member]
      exact old r f member
    · have before := holds.count
      simp only [List.length_append, List.length_cons, List.length_nil] at before length ⊢
      rw [count, before, Platform.add_of_le (by omega)]
      omega

/-- `rlist_insert` before the element that `ys` begins with, or at the back. -/
theorem rlistInsert_cases (serves : Serves P A owner ok limit)
    (holds : Holds P ok owner p w L (xs ++ ys)) (asserts : AllocAsserts P limit size)
    (result : rlistInsert P A p w (entry 0 ys) size = (q, p', w')) :
    Unmoved P w.mem w'.mem (xs ++ ys) ∧
      if q = 0 then p' = p ∧ Holds P ok owner p' w' L (xs ++ ys)
      else q ∉ xs ++ ys ∧ size ≤ rlistElemSize P w'.mem q ∧ ∃ L',
        Holds P ok owner p' w' L' (xs ++ q :: ys) ∧ Extended A ok w (headerSize P + size) w' L' := by
  obtain ⟨representable, small⟩ := asserts
  have granted := serves.alloc holds.ok small
  simp only [rlistInsert, rlistElemAllocSize, Platform.add_of_le representable] at result
  generalize attempt : ralcAlloc A w (headerSize P + size) = answer at granted result
  obtain ⟨reply, w₁⟩ := answer
  obtain ⟨same, outcome⟩ := granted
  dsimp only at same outcome result
  split at result
  case isTrue null =>
    rw [if_pos null] at outcome
    cases result
    exact ⟨holds.unmoved serves same, (if_pos rfl).mpr ⟨rfl, holds.carried serves outcome same⟩⟩
  case isFalse nonnull =>
    rw [if_neg nonnull] at outcome
    obtain ⟨actual, out, large, fresh, granted⟩ := outcome
    have bounds := serves.bounds granted Blocks.grant_same
    dsimp only at bounds
    have before := holds.before serves fun r member =>
      field_kept (f := .prev) (holds.above serves member) (holds.held r member) same
    obtain ⟨new, blocks⟩ := holds.fresh fresh actual
    have block : L.grant reply.ptr owner actual (objBlock P (blockObj P reply.ptr)) =
        some ⟨owner, actual⟩ := by rw [objBlock_blockObj, Blocks.grant_same]
    rw [Reply.actual, out, Option.getD_some, Platform.sub_of_le (by omega) (by omega)] at result
    generalize blockObj P reply.ptr = q₀ at new block result
    have held := held_around (fun r member => ⟨_, holds.held r member⟩) blocks block (by omega)
    have nodes : Nodes P (xs ++ q₀ :: ys) := nodes_of_held serves granted held
    have above := nodes.above q₀ (by simp)
    have outside : Set.EqOn w₁.mem (attach P w₁.mem xs ys q₀ (actual - headerSize P))
        (L.grant reply.ptr owner actual).bytesᶜ := by
      intro x away
      refine (attach_out nodes fun z member => ?_).symm
      by_contra inside
      obtain ⟨n, there⟩ := held z member
      have header := header_bytes (above_of_held serves granted there).1 there
      exact away (header ⟨by omega, by simp only [objElem] at inside ⊢; omega⟩)
    rw [before, setPrev_entry nodes (by simp +contextual), setNext_exit nodes (by simp +contextual),
      data_objElem above.1] at result
    change (q₀, _, { w₁ with mem := attach P w₁.mem xs ys q₀ (actual - headerSize P) }) = _ at result
    obtain ⟨rfl, rest⟩ := Prod.mk.inj result
    obtain ⟨list, rfl⟩ := Prod.mk.inj rest
    have first : p'.first = if xs = [] then objOf P (objElem P q₀) else p.first := by rw [← list]
    have last : p'.last = if ys = [] then objOf P (objElem P q₀) else p.last := by rw [← list]
    have count : p'.count = P.add p.count 1 := by rw [← list]
    obtain ⟨stored, unmoved, attached⟩ := holds.attached serves same new granted nodes blocks block
      (by omega) (by omega) first last count
    rw [if_neg (by omega)]
    refine ⟨unmoved, new, by rw [stored]; omega, _, attached, ?_⟩
    exact ⟨by rwa [attempt], by rwa [attempt], by rw [attempt], by rwa [attempt]⟩

end Insert

/-- The stores of `relink`. -/
def reattach (P : Platform) (m : Mem) (xs ys : List Nat) (q size : Nat) : Mem :=
  setField P (seam P m xs ys (objElem P q) (objElem P q)) (objElem P q) .size size

theorem reattach_field (nodes : Nodes P (xs ++ q :: ys)) (small : size ≤ P.sizeMax)
    (member : r ∈ xs ++ q :: ys) : field P (reattach P m xs ys q size) (objElem P r) f =
      if r = q ∧ f = .size then size
      else if xs.getLast? = some r ∧ f = .next then objElem P q
      else if ys.head? = some r ∧ f = .prev then objElem P q else field P m (objElem P r) f := by
  have q_mem : q ∈ xs ++ q :: ys := by simp
  have e_le : objElem P q ≤ P.sizeMax := Nat.le_trans (Nat.sub_le ..) (nodes.above q q_mem).2
  rw [reattach, nodes.set member q_mem small,
    seam_field nodes (by simp +contextual) (by simp +contextual) member e_le e_le]

theorem reattach_out (nodes : Nodes P (xs ++ q :: ys))
    (outside : ∀ z ∈ xs ++ q :: ys, x < objElem P z ∨ z ≤ x) :
    reattach P m xs ys q size x = m x := by
  rw [reattach, nodes.set_out (by simp) outside,
    seam_out nodes (by simp +contextual) (by simp +contextual) outside]

section Relink
variable {q n ptr' actual : Nat} {w₁ : World σ}

/-- An element whose block moved, before its neighbours know. -/
theorem Holds.moved (serves : Serves P A owner ok limit)
    (holds : Holds P ok owner p w L (xs ++ q :: ys))
    (relocated : Relocated ok owner w L (objBlock P q) n ptr' actual w₁)
    (header : headerSize P ≤ n) :
    blockObj P ptr' ∉ xs ++ ys ∧
      (∀ r ∈ xs ++ ys,
        (L.release (objBlock P q)).grant ptr' owner actual (objBlock P r) = L (objBlock P r)) ∧
      (∀ r ∈ xs ++ ys, ∀ f, field P w₁.mem (objElem P r) f = field P w.mem (objElem P r) f) ∧
      ∀ f, field P w₁.mem (objElem P (blockObj P ptr')) f = field P w.mem (objElem P q) f := by
  have outside := (List.nodup_cons.mp (List.nodup_middle.mp holds.nodup)).1
  have q_mem : q ∈ xs ++ q :: ys := by simp
  have still : ∀ r ∈ xs ++ ys, r ∈ xs ++ q :: ys := fun r => mem_around_cons
  have others : ∀ r ∈ xs ++ ys, objBlock P r ≠ objBlock P q := fun r member =>
    objBlock_ne (holds.above serves (still r member)) (holds.above serves q_mem)
      (ne_of_mem_of_not_mem member outside)
  refine ⟨?_, ?_, ?_, ?_⟩
  · intro member
    have held := holds.held _ (still _ member)
    exact (relocated.blocks held (others _ member)).1 objBlock_blockObj
  · intro r member
    exact (relocated.blocks (holds.held r (still r member)) (others r member)).2
  · intro r member f
    have held : L.release (objBlock P q) (objBlock P r) = some ⟨owner, headerSize P + _⟩ :=
      (Blocks.release_other (others r member)).trans (holds.held r (still r member))
    exact field_kept (holds.above serves (still r member)) held relocated.others
  · intro f
    apply field_shift
    intro i low
    have := sizeofElem_le (P := P)
    have above := holds.above serves q_mem
    have here := relocated.bytes (headerSize P - sizeofElem P + i) (by omega)
    have place : objBlock P q + (headerSize P - sizeofElem P + i) = objElem P q + i := by
      simp only [objBlock, objElem]
      omega
    have place' : ptr' + (headerSize P - sizeofElem P + i) = objElem P (blockObj P ptr') + i := by
      simp only [blockObj, objElem]
      omega
    rwa [place, place'] at here

theorem Holds.moved_bytes (serves : Serves P A owner ok limit)
    (holds : Holds P ok owner p w L (xs ++ q :: ys))
    (relocated : Relocated ok owner w L (objBlock P q) n ptr' actual w₁) :
    Unmoved P w.mem w₁.mem (xs ++ ys) ∧
      ∀ i < n - headerSize P, w₁.mem (blockObj P ptr' + i) = w.mem (q + i) := by
  have outside := (List.nodup_cons.mp (List.nodup_middle.mp holds.nodup)).1
  have above := holds.above serves (q := q) (by simp)
  constructor
  · refine holds.unmoved_rest serves (fun r => mem_around_cons) (fun r member => ?_) relocated.others
    exact Blocks.release_other (objBlock_ne (holds.above serves (mem_around_cons member)) above
      (ne_of_mem_of_not_mem member outside))
  · intro i low
    have here := relocated.bytes (headerSize P + i) (by omega)
    have place : objBlock P q + headerSize P = q := Nat.sub_add_cancel (Nat.le_of_lt above)
    rw [← Nat.add_assoc, ← Nat.add_assoc, place] at here
    exact here

/-- `q'` takes the place of `q`, whose first `n` bytes it has, among the `others`. -/
structure Replaced (P : Platform) (m : Mem) (others : List Nat) (q n q' : Nat) (m' : Mem) : Prop where
  new : q' ∉ others
  bytes : ∀ i < n, m' (q' + i) = m (q + i)
  unmoved : Unmoved P m m' others

/-- The element in its new block, with its neighbours turned to it. -/
theorem Holds.reattached (serves : Serves P A owner ok limit)
    (holds : Holds P ok owner p w L (xs ++ q :: ys))
    (relocated : Relocated ok owner w L (objBlock P q) n ptr' actual w₁)
    (header : headerSize P ≤ n) (room : n ≤ actual) (place : blockObj P ptr' = q')
    (first : p'.first = if xs = [] then objOf P (objElem P q') else p.first)
    (last : p'.last = if ys = [] then objOf P (objElem P q') else p.last)
    (count : p'.count = p.count) :
    let m := reattach P w₁.mem xs ys q' (actual - headerSize P)
    let L' := (L.release (objBlock P q)).grant ptr' owner actual
    rlistElemSize P m q' = actual - headerSize P ∧
      Replaced P w.mem (xs ++ ys) q (n - headerSize P) q' m ∧
      Holds P ok owner p' { w₁ with mem := m } L' (xs ++ q' :: ys) := by
  intro m L'
  obtain ⟨new, blocks, fields, moved⟩ := holds.moved serves relocated header
  have around : rlistNext P w.mem q = entry 0 ys ∧ rlistPrev P w.mem q = exit 0 xs :=
    holds.linked.at_node
  have prev := (moved .prev).trans (field_eq_elemOf around.2)
  have next := (moved .next).trans (field_eq_elemOf around.1)
  have block : L' (objBlock P q') = some ⟨owner, actual⟩ := by
    rw [← place, objBlock_blockObj]
    exact Blocks.grant_same
  rw [place] at new prev next
  have bounds := serves.bounds relocated.ok Blocks.grant_same
  dsimp only at bounds
  have held := held_around (fun r member => ⟨_, holds.held r (mem_around_cons member)⟩) blocks block
    (show headerSize P ≤ actual by omega)
  obtain ⟨unmoved, bytes⟩ := holds.moved_bytes serves relocated
  rw [place] at bytes
  have nodes := nodes_of_held serves relocated.ok held
  have q'_mem : q' ∈ xs ++ q' :: ys := by simp
  have rest := (List.nodup_cons.mp (List.nodup_middle.mp holds.nodup)).2
  have distinct := List.nodup_middle.mpr (List.nodup_cons.mpr ⟨new, rest⟩)
  have fits : actual - headerSize P ≤ P.sizeMax := by omega
  have stores := fun r f => reattach_field (r := r) (m := w₁.mem) (f := f) nodes fits
  have out : ∀ x, (∀ r ∈ xs ++ q' :: ys, x < objElem P r ∨ r ≤ x) →
      reattach P w₁.mem xs ys q' (actual - headerSize P) x = w₁.mem x := fun _ => reattach_out nodes
  have size : rlistElemSize P m q' = actual - headerSize P :=
    (stores q' .size q'_mem).trans (if_pos ⟨rfl, rfl⟩)
  have after := client_headers serves relocated.ok held out
  refine ⟨size, ⟨new, ?_, ?_⟩, ?_⟩
  · intro i low
    rw [← bytes i low]
    refine out _ fun z => off_headers serves relocated.ok held (q := q') (n := actual - headerSize P) ?_ ?_
    · rw [← Nat.add_sub_cancel' (show headerSize P ≤ actual by omega)] at block
      exact block
    · omega
  · refine unmoved.headers serves relocated.ok held ?_ out ?_
    · intro r member
      exact (blocks r member).trans (holds.held r (mem_around_cons member))
    · intro r member
      have different : r ≠ q' := ne_of_mem_of_not_mem member new
      have kept := stores r .size (mem_around_cons member)
      simp only [different, false_and, reduceCtorEq, and_false, if_false] at kept
      exact kept
  · have last_ne : xs.getLast? ≠ some q' := fun last =>
      new (List.mem_append_left ys (List.mem_of_getLast? last))
    have head_ne : ys.head? ≠ some q' := fun head =>
      new (List.mem_append_right xs (List.mem_of_head? head))
    have split : Holds P ok owner p w L (xs ++ [q] ++ ys) := by simpa using holds
    refine split.placed after nodes distinct blocks ?_ ?_ ?_ ?_ first last ?_
    · rw [block, size, Nat.add_sub_cancel' (by omega)]
    · intro r member f
      have different : r ≠ q' := ne_of_mem_of_not_mem member new
      rw [stores r f (mem_around_cons member), if_neg fun both => different both.1, fields r member]
    · rw [stores q' .prev q'_mem, ← prev]
      simp [head_ne]
    · rw [stores q' .next q'_mem, ← next]
      simp [last_ne]
    · rw [count]
      simpa using holds.count

theorem relink_cases (serves : Serves P A owner ok limit)
    (holds : Holds P ok owner p w L (xs ++ q :: ys))
    (relocated : Relocated ok owner w L (objBlock P q) n ptr' actual w₁)
    (header : headerSize P ≤ n) (room : n ≤ actual)
    (result : relink P p w₁ ptr' actual = (q', p', w')) :
    q' ≠ 0 ∧ rlistElemSize P w'.mem q' = actual - headerSize P ∧
      Replaced P w.mem (xs ++ ys) q (n - headerSize P) q' w'.mem ∧
      ∃ L', Holds P ok owner p' w' L' (xs ++ q' :: ys) := by
  obtain ⟨new, blocks, -, moved⟩ := holds.moved serves relocated header
  have around : rlistNext P w.mem q = entry 0 ys ∧ rlistPrev P w.mem q = exit 0 xs :=
    holds.linked.at_node
  have prev := (moved .prev).trans (field_eq_elemOf around.2)
  have next := (moved .next).trans (field_eq_elemOf around.1)
  have bounds := serves.bounds relocated.ok Blocks.grant_same
  dsimp only at bounds
  have block : (L.release (objBlock P q)).grant ptr' owner actual (objBlock P (blockObj P ptr')) =
      some ⟨owner, actual⟩ := by rw [objBlock_blockObj, Blocks.grant_same]
  simp only [relink] at result
  generalize place : blockObj P ptr' = q₁ at new prev next block result
  have nodes : Nodes P (xs ++ q₁ :: ys) := nodes_of_held serves relocated.ok
    (held_around (fun r member => ⟨_, holds.held r (mem_around_cons member)⟩) blocks block (by omega))
  have q₁_mem : q₁ ∈ xs ++ q₁ :: ys := by simp
  have above := nodes.above q₁ q₁_mem
  have sub : ∀ z ∈ xs, z ∈ xs ++ q₁ :: ys := by simp +contextual
  have apart : xs.getLast? ≠ some q₁ := fun last =>
    new (List.mem_append_left ys (List.mem_of_getLast? last))
  have next' : field P (turn P w₁.mem xs.getLast? .next (objElem P q₁)) (objElem P q₁) .next =
      elemOf P (entry 0 ys) := by
    have e_le : objElem P q₁ ≤ P.sizeMax := Nat.le_trans (Nat.sub_le ..) above.2
    rw [turn_field nodes (last_mem sub) q₁_mem e_le,
      if_neg fun both => apart both.1, next]
  rw [prev, setNext_exit nodes sub] at result
  dsimp only at result
  rw [next', setPrev_entry nodes (by simp +contextual), data_objElem above.1,
    Platform.sub_of_le (by omega) (by omega)] at result
  change (q₁, _, { w₁ with mem := reattach P w₁.mem xs ys q₁ (actual - headerSize P) }) = _ at result
  obtain ⟨rfl, rest⟩ := Prod.mk.inj result
  obtain ⟨list, rfl⟩ := Prod.mk.inj rest
  have first : p'.first = if xs = [] then objOf P (objElem P q₁) else p.first := by rw [← list]
  have last : p'.last = if ys = [] then objOf P (objElem P q₁) else p.last := by rw [← list]
  have count : p'.count = p.count := by rw [← list]
  obtain ⟨size, replaced, attached⟩ :=
    holds.reattached serves relocated header room place first last count
  exact ⟨by omega, size, replaced, _, attached⟩

end Relink

/-- The request that `rlist_resize` fulfils: its own, or the size that the refused realloc
wrote. -/
def resizeAsks (P : Platform) (A : Ralc σ) (w : World σ) (obj newSize : Nat) : Nat :=
  let newBlock := (ralcRealloc A w (objBlock P obj) (headerSize P + newSize)).1
  if newBlock.ptr = 0 then newBlock.actual newSize else newSize

/-- The fallback of `rlist_resize`, after the realloc was refused: the block for the size
that is left in `newSize`, with the old element's bytes as far as there is room. -/
theorem rlistResize_fallback (serves : Serves P A owner ok limit)
    (holds : Holds P ok owner p w L (xs ++ q :: ys)) (fits : headerSize P + newSize ≤ P.sizeMax)
    (refused : ralcRealloc A w (objBlock P q) (headerSize P + newSize) = (reply, w₁))
    (null : reply.ptr = 0) (same : Set.EqOn w.mem w₁.mem L.bytes) (kept : ok w₁ L)
    (asserts : AllocAsserts P limit (reply.actual newSize))
    (request : ralcAlloc A w₁ (headerSize P + reply.actual newSize) = (fresh, w₂))
    (result : rlistResize P A p w q newSize = (q', p', w')) :
    if fresh.ptr = 0 then
      q' = 0 ∧ p' = p ∧ Holds P ok owner p' w' L (xs ++ q :: ys) ∧ Set.EqOn w.mem w'.mem L.bytes
    else ∃ actual, fresh.out = some actual ∧ headerSize P + reply.actual newSize ≤ actual ∧ q' ≠ 0 ∧
      rlistElemSize P w'.mem q' = actual - headerSize P ∧
      Replaced P w.mem (xs ++ ys) q (min (rlistElemSize P w.mem q) (actual - headerSize P)) q' w'.mem ∧
      ∃ L', Holds P ok owner p' w' L' (xs ++ q' :: ys) := by
  obtain ⟨representable, small⟩ := asserts
  have bounds := serves.bounds holds.ok (holds.held q (by simp))
  dsimp only at bounds
  simp only [rlistResize, rlistElemAllocSize, Platform.add_of_le fits, refused,
    if_neg (not_not_intro null)] at result
  have holds' := holds.carried serves kept same
  have granted := serves.alloc kept small
  rw [Platform.add_of_le representable] at result
  generalize reply.actual newSize = asked at request result granted small representable ⊢
  rw [request] at granted result
  obtain ⟨same', outcome⟩ := granted
  dsimp only at same' outcome result
  have both : Set.EqOn w.mem w₂.mem L.bytes := same.trans same'
  split at result
  case isTrue null =>
    cases result
    rw [if_pos null] at outcome ⊢
    exact ⟨rfl, rfl, holds'.carried serves outcome same', both⟩
  case isFalse nonnull =>
    rw [if_neg nonnull] at outcome ⊢
    obtain ⟨actual, out, large, unused, granted⟩ := outcome
    have blockSize : P.add (headerSize P) (field P w.mem (objElem P q) .size) =
        headerSize P + rlistElemSize P w.mem q := Platform.add_of_le (by
      have := bounds.2
      simp only [rlistElemSize] at this
      omega)
    rw [Reply.actual, out, Option.getD_some, blockSize] at result
    have sizes : ∀ n, (n = if headerSize P + rlistElemSize P w.mem q < actual
        then headerSize P + rlistElemSize P w.mem q else actual) →
        headerSize P ≤ n ∧ n ≤ headerSize P + rlistElemSize P w.mem q ∧ n ≤ actual ∧
          n - headerSize P = min (rlistElemSize P w.mem q) (actual - headerSize P) := by
      intro n chosen
      split at chosen <;> omega
    obtain ⟨header, short, room, enough⟩ := sizes _ rfl
    have relocated := serves.copied (holds.held q (by simp)) both nonnull unused granted short room
    obtain ⟨positive, size, replaced, placed⟩ :=
      relink_cases serves holds relocated header room result
    exact ⟨actual, out, large, positive, size, enough ▸ replaced, placed⟩

/-- `rlist_resize` of any element: in place, moved by the allocator, or copied. -/
theorem rlistResize_cases (serves : Serves P A owner ok limit)
    (holds : Holds P ok owner p w L (xs ++ q :: ys)) (asserts : ResizeAsserts P A limit w q newSize)
    (result : rlistResize P A p w q newSize = (q', p', w')) :
    if q' = 0 then p' = p ∧ Holds P ok owner p' w' L (xs ++ q :: ys) ∧ Set.EqOn w.mem w'.mem L.bytes
    else resizeAsks P A w q newSize ≤ rlistElemSize P w'.mem q' ∧
      Replaced P w.mem (xs ++ ys) q (min (rlistElemSize P w.mem q) (resizeAsks P A w q newSize)) q'
        w'.mem ∧ ∃ L', Holds P ok owner p' w' L' (xs ++ q' :: ys) := by
  obtain ⟨⟨representable, small⟩, fallback⟩ := asserts
  have held := holds.held q (by simp)
  have moves := serves.realloc holds.ok held small
  rw [resizeAsks]
  generalize resize : ralcRealloc A w (objBlock P q) (headerSize P + newSize) = attempt
    at moves fallback ⊢
  obtain ⟨reply, w₁⟩ := attempt
  dsimp only at fallback ⊢
  by_cases nonnull : reply.ptr ≠ 0
  · simp only [rlistResize, rlistElemAllocSize, Platform.add_of_le representable, resize,
      if_pos nonnull] at result
    obtain ⟨actual, out, large, relocated⟩ := moves.relocated nonnull
    rw [Reply.actual, out] at result
    obtain ⟨positive, size, replaced, placed⟩ :=
      relink_cases serves holds relocated (by omega) (by omega) result
    rw [if_neg positive, if_neg nonnull, size]
    refine ⟨by omega, ?_, placed⟩
    rwa [show min (headerSize P + rlistElemSize P w.mem q) (headerSize P + newSize) - headerSize P =
      min (rlistElemSize P w.mem q) newSize by omega] at replaced
  · have null := not_not.mp nonnull
    obtain ⟨same, kept⟩ := (if_pos null).mp moves.2
    generalize request : ralcAlloc A w₁ (headerSize P + reply.actual newSize) = attempt
    obtain ⟨fresh, w₂⟩ := attempt
    have effect := rlistResize_fallback serves holds representable resize null same kept (fallback null)
      request result
    rw [if_pos null]
    split at effect
    case isTrue =>
      obtain ⟨rfl, unchanged⟩ := effect
      exact (if_pos rfl).mpr unchanged
    case isFalse =>
      obtain ⟨actual, -, large, positive, size, replaced, placed⟩ := effect
      rw [if_neg positive, size]
      exact ⟨by omega, ⟨replaced.new, fun i low => replaced.bytes i (by omega), replaced.unmoved⟩, placed⟩

/-- The loop of `rlist_remove` frees a run and stops behind it. -/
theorem freeRun_eq (serves : Serves P A owner ok limit) (before : ok w L) (nodup : mid.Nodup)
    (held : ∀ q ∈ mid, ∃ size, L (objBlock P q) = some ⟨owner, headerSize P + size⟩)
    (path : Path (rlistNext P w.mem) a mid c) :
    freeRun P A w (elemOf P a) mid.length =
      (elemOf P c, freeAll A w (mid.map (objBlock P))) := by
  induction mid generalizing w L a with
  | nil =>
    cases path
    rfl
  | cons q mid ih =>
    obtain ⟨rfl, rest⟩ := path
    obtain ⟨outside, nodup⟩ := List.nodup_cons.mp nodup
    obtain ⟨size, here⟩ := held a List.mem_cons_self
    have above := (above_of_held serves before here).1
    have wide : sizeofElem P < a := Nat.lt_of_le_of_lt sizeofElem_le above
    obtain ⟨kept, left⟩ := serves.free before here
    have held' : ∀ r ∈ mid, ∃ size, L.release (objBlock P a) (objBlock P r) =
        some ⟨owner, headerSize P + size⟩ := by
      intro r member
      obtain ⟨size, there⟩ := held r (List.mem_cons_of_mem _ member)
      have above' := (above_of_held serves before there).1
      rw [Blocks.release_other (objBlock_ne above' above (ne_of_mem_of_not_mem member outside))]
      exact ⟨size, there⟩
    have path' : Path (rlistNext P (ralcFree A w (objBlock P a)).mem) (rlistNext P w.mem a) mid c := by
      apply rest.congr
      intro r member
      obtain ⟨size, there⟩ := held' r member
      have above' := (above_of_held serves left there).1
      exact congrArg (objOf P) (field_kept above' there kept)
    rw [List.length_cons, freeRun, elemOf_of wide, data_objElem wide,
      field_eq_elemOf (show objOf P (field P w.mem (objElem P a) .next) = rlistNext P w.mem a from rfl),
      ih left nodup held' path', List.map_cons, freeAll_cons]

/-- The run is freed, and the other blocks stay. -/
theorem Holds.freed (serves : Serves P A owner ok limit)
    (holds : Holds P ok owner p w L (xs ++ q :: mid ++ ys)) :
    let blocks := (q :: mid).map (objBlock P)
    freeRun P A w (objElem P q) (mid.length + 1) = (elemOf P (entry 0 ys), freeAll A w blocks) ∧
      (∀ r ∈ xs ++ ys, L.without blocks (objBlock P r) = L (objBlock P r)) ∧
      Set.EqOn w.mem (freeAll A w blocks).mem (L.without blocks).bytes ∧
      ok (freeAll A w blocks) (L.without blocks) := by
  have run : ∀ r ∈ q :: mid, r ∈ xs ++ q :: mid ++ ys := by simp +contextual
  obtain ⟨⟨start, -, path, -⟩, -⟩ := holds.linked.around
  rw [path.1] at path
  have distinct := holds.nodup
  rw [List.append_assoc, (List.perm_append_comm_assoc xs _ ys).nodup_iff] at distinct
  obtain ⟨inner, -, apart⟩ := List.nodup_append'.mp distinct
  have held : ∀ r ∈ q :: mid, ∃ size, L (objBlock P r) = some ⟨owner, headerSize P + size⟩ :=
    fun r member => ⟨_, holds.held r (run r member)⟩
  have above := fun r member => holds.above serves (run r member)
  have freed := freeRun_eq serves holds.ok inner held path
  rw [elemOf_of (Nat.lt_of_le_of_lt sizeofElem_le (above q List.mem_cons_self)),
    List.length_cons] at freed
  refine ⟨freed, fun r member => ?_, ?_⟩
  · apply Blocks.without_other
    intro inside
    obtain ⟨s, taken, same⟩ := List.mem_map.mp inside
    exact objBlock_ne (above s taken) (holds.above serves (mem_around member))
      (fun equal => apart taken (equal ▸ member)) same
  · refine serves.freeAll holds.ok (inner.map_on fun r member s member' same => ?_) fun b member => ?_
    · by_contra different
      exact objBlock_ne (above r member) (above s member') different same
    · obtain ⟨r, taken, rfl⟩ := List.mem_map.mp member
      exact ⟨_, holds.held r (run r taken)⟩

theorem rlistRemove_cases (serves : Serves P A owner ok limit)
    (holds : Holds P ok owner p w L (xs ++ q :: mid ++ ys))
    (result : rlistRemove P A p w q (mid.length + 1) = (q', p', w')) :
    q' = entry 0 ys ∧ Unmoved P w.mem w'.mem (xs ++ ys) ∧
      ∃ L', Holds P ok owner p' w' L' (xs ++ ys) := by
  have rest : ∀ r ∈ xs ++ ys, r ∈ xs ++ q :: mid ++ ys := fun r => mem_around
  have node : Linked (rlistNext P w.mem) (rlistPrev P w.mem) 0 p.first p.last
      (xs ++ q :: (mid ++ ys)) := by simpa using holds.linked
  have before := field_eq_elemOf node.at_node.2
  have distinct := holds.nodup
  rw [List.append_assoc, (List.perm_append_comm_assoc xs _ ys).nodup_iff] at distinct
  have outer := (List.nodup_append'.mp distinct).2.1
  have above' := fun r member => holds.above serves (rest r member)
  obtain ⟨freed, others, kept, left⟩ := holds.freed serves
  have held' : ∀ r ∈ xs ++ ys, ∃ size, L.without ((q :: mid).map (objBlock P)) (objBlock P r) =
      some ⟨owner, headerSize P + size⟩ := by
    intro r member
    rw [others r member]
    exact ⟨_, holds.held r (rest r member)⟩
  simp only [rlistRemove, if_neg (Nat.succ_ne_zero mid.length), before, freed] at result
  generalize freeAll A w ((q :: mid).map (objBlock P)) = w₁ at kept left result
  have fields := fun r member f => field_kept (f := f) (above' r member)
    ((others r member).trans (holds.held r (rest r member))) kept
  have nodes := nodes_of_held serves left held'
  have sub : ∀ z ∈ xs, z ∈ xs ++ ys := by simp +contextual
  have sub' : ∀ z ∈ ys, z ∈ xs ++ ys := by simp +contextual
  rw [setNext_exit nodes sub] at result
  dsimp only at result
  rw [setPrev_entry nodes sub', nodes.objOf_entry sub', nodes.objOf_exit sub] at result
  have after : ok { w₁ with mem := seam P w₁.mem xs ys (elemOf P (entry 0 ys)) (elemOf P (exit 0 xs)) }
      (L.without ((q :: mid).map (objBlock P))) :=
    client_headers serves left held' fun x away => seam_out nodes sub sub' away
  have old := fun r member f => seam_field (m := w₁.mem) (f := f) (q := r) nodes sub sub' member
    (nodes.elemOf_le (head_mem sub')) (nodes.elemOf_le (last_mem sub))
  have same := holds.unmoved_rest serves rest others kept
  cases result
  refine ⟨rfl, ?_, L.without ((q :: mid).map (objBlock P)), ?_⟩
  · refine same.headers serves left held' ?_ (fun x away => seam_out nodes sub sub' away) ?_
    · exact fun r member => (others r member).trans (holds.held r (rest r member))
    · intro r member
      have size := old r member .size
      simp only [reduceCtorEq, and_false, if_false] at size
      exact size
  have count := holds.count
  have bound := (holds.nodes serves).length_le holds.nodup
  rw [show xs ++ ys = xs ++ [] ++ ys by simp]
  refine holds.rebuild (a := elemOf P (entry 0 ys)) (b := elemOf P (exit 0 xs)) after
    (by simpa using outer) others (by simp) ?_ ?_ ?_ ?_ ?_ ?_
  · intro r member f
    rw [← fields r member f]
    exact old r member f
  · rw [nodes.objOf_entry sub']
  · rw [nodes.objOf_exit sub]
  · exact nodes.objOf_entry sub'
  · exact nodes.objOf_exit sub
  · simp only [List.length_append, List.length_cons, List.length_nil] at count bound ⊢
    rw [count, Platform.sub_of_le (by omega) (by omega)]
    omega

end Ratlib.Rlist
