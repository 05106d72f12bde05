import Ratlib.Rlist.Model
import Ratlib.Library.Paths

/-! The headers of list elements in memory, and what setting a pointer in one of them
does to the pointers of all. -/
namespace Ratlib.Rlist

variable {P : Platform} {m m' : Mem} {p : RList} {objs xs ys : List Nat} {q r e : Nat} {f : Field}

/-- Payloads with room for their headers, which share no byte. -/
structure Nodes (P : Platform) (objs : List Nat) : Prop where
  above : ∀ q ∈ objs, sizeofElem P < q ∧ q ≤ P.sizeMax
  apart : ∀ q ∈ objs, ∀ r ∈ objs, q ≠ r → q + sizeofElem P ≤ r ∨ r + sizeofElem P ≤ q

theorem data_objElem (above : sizeofElem P < q) : data P (objElem P q) = q := by
  rw [data, objElem]
  omega

theorem objElem_pos (above : sizeofElem P < q) : objElem P q ≠ 0 := by
  rw [objElem]
  omega

@[simp] theorem elemOf_zero : elemOf P 0 = 0 := rfl
@[simp] theorem objOf_zero : objOf P 0 = 0 := rfl

theorem elemOf_of (above : sizeofElem P < q) : elemOf P q = objElem P q := if_pos (by omega)

@[simp] theorem objOf_elemOf (above : q = 0 ∨ sizeofElem P < q) : objOf P (elemOf P q) = q := by
  rcases above with rfl | above
  · rfl
  · rw [elemOf_of above, objOf, if_pos (objElem_pos above), data_objElem above]

@[simp] theorem elemOf_objOf : elemOf P (objOf P e) = e := by
  by_cases null : e = 0
  · rw [null, objOf_zero, elemOf_zero]
  · rw [objOf, if_pos null, elemOf, data, objElem, if_pos (by omega), Nat.add_sub_cancel]

theorem objOf_objElem (above : sizeofElem P < q) : objOf P (objElem P q) = q := by
  rw [← elemOf_of above, objOf_elemOf (Or.inr above)]

theorem Field.within (f : Field) : f.index * P.sizeT + P.sizeT ≤ sizeofElem P := by
  rw [sizeofElem]
  cases f <;> simp only [index] <;> omega

theorem Field.separate (other : f' ≠ f) : f.index * P.sizeT + P.sizeT ≤ f'.index * P.sizeT ∨
    f'.index * P.sizeT + P.sizeT ≤ f.index * P.sizeT := by
  cases f <;> cases f' <;> simp only [index] <;> first | omega | exact absurd rfl other

theorem field_congr (same : Set.EqOn m m' (Set.Ico e (e + sizeofElem P))) :
    field P m e f = field P m' e f := by
  apply Platform.get_congr
  intro x inside
  have := f.within (P := P)
  have := inside.1
  have := inside.2
  exact same ⟨by omega, by omega⟩

theorem field_shift (same : ∀ i < sizeofElem P, m (e + i) = m' (e' + i)) :
    field P m e f = field P m' e' f := by
  apply Mem.load_shift
  intro i low
  have := f.within (P := P)
  rw [Nat.add_assoc, Nat.add_assoc]
  exact same _ (by omega)

theorem field_setField (small : value ≤ P.sizeMax)
    (apart : e' ≠ e → e' + sizeofElem P ≤ e ∨ e + sizeofElem P ≤ e') :
    field P (setField P m e f value) e' f' = if e' = e ∧ f' = f then value else field P m e' f' := by
  have := f.within (P := P)
  have := f'.within (P := P)
  by_cases same : e' = e
  · subst same
    by_cases member : f' = f
    · subst member
      rw [if_pos ⟨rfl, rfl⟩]
      exact Platform.get_put small
    · rw [if_neg fun both => member both.2]
      have := Field.separate (P := P) member
      exact Platform.get_put_out (by omega)
  · rw [if_neg fun both => same both.1]
    have := apart same
    exact Platform.get_put_out (by omega)

theorem setField_out (outside : x < e ∨ e + sizeofElem P ≤ x) : setField P m e f value x = m x := by
  have := f.within (P := P)
  exact Platform.put_out (by omega)

section Seam
variable {near : Option Nat}

theorem Nodes.elem_apart (nodes : Nodes P objs) (q_mem : q ∈ objs) (r_mem : r ∈ objs)
    (different : objElem P q ≠ objElem P r) :
    objElem P q + sizeofElem P ≤ objElem P r ∨ objElem P r + sizeofElem P ≤ objElem P q := by
  have := nodes.above q q_mem
  have := nodes.above r r_mem
  have := nodes.apart q q_mem r r_mem fun same => different (by rw [same])
  simp only [objElem]
  omega

theorem Nodes.elem_inj (nodes : Nodes P objs) (q_mem : q ∈ objs) (r_mem : r ∈ objs) :
    objElem P q = objElem P r ↔ q = r := by
  have := nodes.above q q_mem
  have := nodes.above r r_mem
  simp only [objElem]
  omega

/-- Setting one member of one header, as seen at the payloads. -/
theorem Nodes.set (nodes : Nodes P objs) (q_mem : q ∈ objs) (r_mem : r ∈ objs)
    (small : value ≤ P.sizeMax) :
    field P (setField P m (objElem P r) f value) (objElem P q) f' =
      if q = r ∧ f' = f then value else field P m (objElem P q) f' := by
  rw [field_setField small (nodes.elem_apart q_mem r_mem)]
  simp only [nodes.elem_inj q_mem r_mem]

/-- The pointer of a neighbour, if there is one, turned to `e`. -/
def turn (P : Platform) (m : Mem) (near : Option Nat) (f : Field) (e : Nat) : Mem :=
  match near with
  | none => m
  | some z => setField P m (objElem P z) f e

theorem last_mem (sub : ∀ z ∈ xs, z ∈ objs) (z : Nat) (last : xs.getLast? = some z) : z ∈ objs :=
  sub z (List.mem_of_getLast? last)

theorem head_mem (sub : ∀ z ∈ ys, z ∈ objs) (z : Nat) (head : ys.head? = some z) : z ∈ objs :=
  sub z (List.mem_of_head? head)

/-- The neighbours are payloads or NULL. -/
theorem Nodes.objOf_entry (nodes : Nodes P objs) (sub : ∀ z ∈ ys, z ∈ objs) :
    objOf P (elemOf P (entry 0 ys)) = entry 0 ys := by
  apply objOf_elemOf
  cases ys with
  | nil => exact Or.inl rfl
  | cons y ys => exact Or.inr (nodes.above y (sub y List.mem_cons_self)).1

theorem Nodes.objOf_exit (nodes : Nodes P objs) (sub : ∀ z ∈ xs, z ∈ objs) :
    objOf P (elemOf P (exit 0 xs)) = exit 0 xs := by
  rw [exit, ← List.head?_reverse]
  exact nodes.objOf_entry fun z member => sub z (List.mem_reverse.mp member)

theorem setNext_exit (nodes : Nodes P objs) (sub : ∀ z ∈ xs, z ∈ objs) :
    setNext P p m (elemOf P (exit 0 xs)) e =
      ({ p with first := if xs = [] then objOf P e else p.first }, turn P m xs.getLast? .next e) := by
  have inside := last_mem sub
  simp only [exit, ← List.getLast?_eq_none_iff]
  generalize xs.getLast? = near at inside ⊢
  cases near with
  | none => rfl
  | some z =>
    have above := (nodes.above z (inside z rfl)).1
    rw [Option.getD_some, elemOf_of above, setNext, if_pos (objElem_pos above)]
    rfl

theorem setPrev_entry (nodes : Nodes P objs) (sub : ∀ z ∈ ys, z ∈ objs) :
    setPrev P p m (elemOf P (entry 0 ys)) e =
      ({ p with last := if ys = [] then objOf P e else p.last }, turn P m ys.head? .prev e) := by
  have inside := head_mem sub
  simp only [entry, ← List.head?_eq_none_iff]
  generalize ys.head? = near at inside ⊢
  cases near with
  | none => rfl
  | some z =>
    have above := (nodes.above z (inside z rfl)).1
    rw [Option.getD_some, elemOf_of above, setPrev, if_pos (objElem_pos above)]
    rfl

/-- Turning the pointer of a neighbour turns no other. -/
theorem turn_field (nodes : Nodes P objs) (inside : ∀ z, near = some z → z ∈ objs)
    (q_mem : q ∈ objs) (small : e ≤ P.sizeMax) :
    field P (turn P m near f e) (objElem P q) f' =
      if near = some q ∧ f' = f then e else field P m (objElem P q) f' := by
  cases near with
  | none => simp [turn]
  | some z =>
    rw [turn, nodes.set q_mem (inside z rfl) small]
    simp only [Option.some.injEq, eq_comm]

theorem Nodes.set_out (nodes : Nodes P objs) (member : q ∈ objs)
    (outside : ∀ z ∈ objs, x < objElem P z ∨ z ≤ x) :
    setField P m (objElem P q) f value x = m x := by
  have := nodes.above q member
  have away := outside q member
  exact setField_out (by rw [objElem] at away ⊢; omega)

theorem turn_out (nodes : Nodes P objs) (inside : ∀ z, near = some z → z ∈ objs)
    (outside : ∀ z ∈ objs, x < objElem P z ∨ z ≤ x) : turn P m near f e x = m x := by
  cases near with
  | none => rfl
  | some z => exact nodes.set_out (inside z rfl) outside

/-- Both neighbours turned: the one that `xs` ends with to `a`, the one that `ys`
begins with to `b`. -/
def seam (P : Platform) (m : Mem) (xs ys : List Nat) (a b : Nat) : Mem :=
  turn P (turn P m xs.getLast? .next a) ys.head? .prev b

variable {a b : Nat}

theorem seam_field (nodes : Nodes P objs) (sub : ∀ z ∈ xs, z ∈ objs) (sub' : ∀ z ∈ ys, z ∈ objs)
    (q_mem : q ∈ objs) (a_le : a ≤ P.sizeMax) (b_le : b ≤ P.sizeMax) :
    field P (seam P m xs ys a b) (objElem P q) f =
      if xs.getLast? = some q ∧ f = .next then a
      else if ys.head? = some q ∧ f = .prev then b else field P m (objElem P q) f := by
  rw [seam, turn_field nodes (head_mem sub') q_mem b_le, turn_field nodes (last_mem sub) q_mem a_le]
  cases f <;> simp

theorem seam_out (nodes : Nodes P objs) (sub : ∀ z ∈ xs, z ∈ objs) (sub' : ∀ z ∈ ys, z ∈ objs)
    (outside : ∀ z ∈ objs, x < objElem P z ∨ z ≤ x) : seam P m xs ys a b x = m x := by
  rw [seam, turn_out nodes (head_mem sub') outside, turn_out nodes (last_mem sub) outside]

end Seam
end Ratlib.Rlist
