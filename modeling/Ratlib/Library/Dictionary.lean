import Mathlib.Data.List.Basic
import Mathlib.Logic.Relation

/-! Finite maps as lists of entries, whose keys are compared by a Boolean equivalence. The
order of the entries means nothing: what is known of a list carries to its permutations. -/
namespace Ratlib.Dictionary

variable {α : Type u} {κ : Type v}

/-- The entry for the class of a key. -/
def lookup (equals : κ → κ → Bool) (key : α → κ) (k : κ) (es : List α) : Option α :=
  es.find? fun e => equals k (key e)

def without (equals : κ → κ → Bool) (key : α → κ) (k : κ) (es : List α) : List α :=
  es.filter fun e => !equals k (key e)

def Distinct (equals : κ → κ → Bool) (key : α → κ) (es : List α) : Prop :=
  es.Pairwise fun e e' => ¬equals (key e) (key e')

variable {equals : κ → κ → Bool} {key : α → κ} {k k' : κ} {es es' rest : List α} {e : α}

theorem lookup_eq_none (absent : ∀ x ∈ es, ¬equals k (key x)) : lookup equals key k es = none :=
  List.find?_eq_none.mpr absent

theorem lookup_eq_some (equiv : Equivalence fun a b => equals a b = true)
    (distinct : Distinct equals key es) (member : e ∈ es) (equal : equals k (key e)) :
    lookup equals key k es = some e := by
  induction es with
  | nil => cases member
  | cons x es ih =>
    obtain ⟨apart, distinct⟩ := List.pairwise_cons.mp distinct
    rcases List.mem_cons.mp member with rfl | member
    · exact List.find?_cons_of_pos equal
    · have other : ¬equals k (key x) := fun equal' =>
        apart e member (equiv.trans (equiv.symm equal') equal)
      rw [lookup, List.find?_cons_of_neg (p := fun e => equals k (key e)) other]
      exact ih distinct member

theorem lookup_filter {keep : α → Bool} (kept : ∀ x ∈ es, equals k (key x) → keep x) :
    lookup equals key k (es.filter keep) = lookup equals key k es := by
  rw [lookup, List.find?_filter, lookup]
  induction es with
  | nil => rfl
  | cons x es ih =>
    rw [List.find?_cons, List.find?_cons, ih fun y member => kept y (List.mem_cons_of_mem x member)]
    cases equal : equals k (key x) with
    | true => simp [kept x List.mem_cons_self equal]
    | false => simp

theorem lookup_without (equiv : Equivalence fun a b => equals a b = true)
    (other : ¬equals k k') : lookup equals key k' (without equals key k es) =
      lookup equals key k' es := by
  refine lookup_filter fun x _ equal => ?_
  rw [Bool.not_eq_true', Bool.eq_false_iff]
  exact fun equal' => other (equiv.trans equal' (equiv.symm equal))

theorem lookup_cons_other (other : ¬equals k (key e)) :
    lookup equals key k (e :: es) = lookup equals key k es :=
  List.find?_cons_of_neg (p := fun e => equals k (key e)) other

/-- Dropping the class of a key drops the entries that are in it. -/
theorem without_perm (same : es.Perm (gone ++ rest)) (equal : ∀ x ∈ gone, equals k (key x))
    (other : ∀ x ∈ rest, ¬equals k (key x)) : (without equals key k es).Perm rest := by
  refine (same.filter _).trans ?_
  have stays : rest.filter (fun x => !equals k (key x)) = rest :=
    List.filter_eq_self.mpr fun x member => by simpa using other x member
  have leaves : gone.filter (fun x => !equals k (key x)) = [] :=
    List.filter_eq_nil_iff.mpr fun x member => by simpa using equal x member
  rw [List.filter_append, stays, leaves, List.nil_append]

theorem without_absent (absent : ∀ x ∈ es, ¬equals k (key x)) : without equals key k es = es :=
  List.filter_eq_self.mpr fun x member => by simpa using absent x member

end Ratlib.Dictionary
