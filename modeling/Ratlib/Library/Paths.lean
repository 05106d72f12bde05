import Mathlib.Data.List.Nodup
import Mathlib.Data.List.Basic
import Mathlib.Logic.Function.Iterate

/-! Linked sequences. A path is what `next` pointers visit from a start to a stop. A
chain is the path that a cell holds, where the cells of the nodes are the nodes; a
doubly linked list is a path and the reverse path. Nodes are of any type, and the
pointers any functions on it. -/
namespace Ratlib

theorem mem_around {xs mid ys : List α} (member : x ∈ xs ++ ys) : x ∈ xs ++ mid ++ ys := by
  rw [List.append_assoc]
  exact ((List.sublist_append_right mid ys).append_left xs).subset member

theorem mem_around_cons {xs ys : List α} (member : x ∈ xs ++ ys) : x ∈ xs ++ y :: ys :=
  ((List.sublist_cons_self y ys).append_left xs).subset member

/-- `es` is visited from `a` before `b`. -/
def Path (next : α → α) : α → List α → α → Prop
  | a, [], b => a = b
  | a, e :: es, b => a = e ∧ Path next (next e) es b

variable {α : Type u} {f g : α → α} {a a' b c nil : α} {xs ys es : List α}

theorem Path.append (front : Path f a xs b) (rest : Path f b ys c) : Path f a (xs ++ ys) c := by
  induction xs generalizing a with
  | nil =>
    cases front
    exact rest
  | cons x xs ih => exact ⟨front.1, ih front.2⟩

theorem Path.split (path : Path f a (xs ++ ys) c) : ∃ b, Path f a xs b ∧ Path f b ys c := by
  induction xs generalizing a with
  | nil => exact ⟨a, rfl, path⟩
  | cons x xs ih =>
    obtain ⟨b, front, rest⟩ := ih path.2
    exact ⟨b, ⟨path.1, front⟩, rest⟩

theorem Path.congr (path : Path f a es b) (same : ∀ e ∈ es, g e = f e) : Path g a es b := by
  induction es generalizing a with
  | nil => exact path
  | cons e es ih =>
    obtain ⟨rfl, rest⟩ := path
    refine ⟨rfl, ?_⟩
    rw [same a List.mem_cons_self]
    exact ih rest fun x member => same x (List.mem_cons_of_mem _ member)

def entry (nil : α) (es : List α) : α := es.head?.getD nil
def exit (nil : α) (es : List α) : α := es.getLast?.getD nil

theorem Path.entry (path : Path f a es nil) : a = entry nil es := by
  cases es with
  | nil => exact path
  | cons e es => exact path.1

/-- Turning the last pointer of a path turns its stop. -/
theorem Path.redirect [DecidableEq α] (path : Path f a xs b) (nodup : xs.Nodup)
    (start : a' = if xs = [] then c else a)
    (turned : ∀ x ∈ xs, g x = if xs.getLast? = some x then c else f x) : Path g a' xs c := by
  induction xs generalizing a a' with
  | nil => exact start
  | cons x xs ih =>
    obtain ⟨rfl, rest⟩ := path
    obtain ⟨outside, nodup⟩ := List.nodup_cons.mp nodup
    refine ⟨start, ?_⟩
    rw [turned a List.mem_cons_self]
    cases xs with
    | nil => exact if_pos rfl
    | cons y ys =>
      have last : (a :: y :: ys).getLast? = (y :: ys).getLast? := List.getLast?_cons_cons
      have inner : (y :: ys).getLast? ≠ some a := fun same => outside (List.mem_of_getLast? same)
      rw [last, if_neg inner]
      apply ih rest nodup (by rw [if_neg (List.cons_ne_nil y ys)])
      intro q member
      rw [turned q (List.mem_cons_of_mem _ member), last]

theorem Path.iterate (path : Path f a es b) (inside : i < es.length) : f^[i] a = es[i] := by
  induction es generalizing a i with
  | nil => cases inside
  | cons e es ih =>
    obtain ⟨rfl, rest⟩ := path
    cases i with
    | zero => rfl
    | succ i =>
      rw [Function.iterate_succ_apply, List.getElem_cons_succ]
      exact ih rest (Nat.lt_of_succ_lt_succ inside)

/-- `es` from the cell `link` on. -/
def Chain (next : α → α) (nil link : α) (es : List α) : Prop := Path next (next link) es nil

namespace Chain

variable {link e : α} {mid mid' : List α}

theorem entry (chain : Chain f nil link es) : f link = entry nil es := Path.entry chain

theorem congr (chain : Chain f nil link es) (same : ∀ c ∈ link :: es, g c = f c) :
    Chain g nil link es := by
  rw [Chain, same link List.mem_cons_self]
  exact Path.congr chain fun e member => same e (List.mem_cons_of_mem _ member)

theorem push (chain : Chain f nil link es) (turned : g link = e) (next : g e = f link)
    (same : ∀ c ∈ es, g c = f c) : Chain g nil link (e :: es) := by
  refine ⟨turned, ?_⟩
  rw [next]
  exact Path.congr chain same

/-- The cell that points to the rest of a chain. -/
theorem at_exit (chain : Chain f nil link (xs ++ ys)) : Chain f nil (exit link xs) ys := by
  induction xs generalizing link with
  | nil => exact chain
  | cons x xs ih =>
    have step : Chain f nil (exit x xs) ys := ih chain.2
    cases xs <;> exact step

theorem exit_getLast? : (link :: xs).getLast? = some (exit link xs) := by
  cases xs with
  | nil => rfl
  | cons x xs => rw [exit, List.getLast?_cons_cons, List.getLast?_cons]; rfl

theorem exit_mem (link : α) (xs : List α) : exit link xs ∈ link :: xs :=
  List.mem_of_getLast? exit_getLast?

/-- Replacing a run: the cell before it is turned to another run that leads to the rest. -/
theorem splice [DecidableEq α] (chain : Chain f nil link (xs ++ mid ++ ys))
    (nodup : (link :: xs).Nodup) (turned : g (exit link xs) = a)
    (inner : Path g a mid' (Ratlib.entry nil ys))
    (front : ∀ c ∈ link :: xs, c ≠ exit link xs → g c = f c) (back : ∀ y ∈ ys, g y = f y) :
    Chain g nil link (xs ++ mid' ++ ys) := by
  have whole : Path f link (link :: xs ++ (mid ++ ys)) nil := by
    rw [Chain, List.append_assoc] at chain
    exact ⟨rfl, chain⟩
  obtain ⟨b, before, rest⟩ := whole.split
  obtain ⟨c, -, after⟩ := rest.split
  have after' : Path g (Ratlib.entry nil ys) ys nil := (after.entry ▸ after).congr back
  have before' : Path g link (link :: xs) a := by
    refine before.redirect nodup rfl fun x member => ?_
    rw [exit_getLast?]
    split
    case isTrue last => rw [← Option.some.inj last, turned]
    case isFalse other => exact front x member fun same => other (by rw [same])
  have joined := (before'.append inner).append after'
  exact joined.2

end Chain

/-- `es` from `first` by `next` and from `last` by `prev`, in both directions up to `nil`. -/
structure Linked (next prev : α → α) (nil first last : α) (es : List α) : Prop where
  forward : Path next first es nil
  backward : Path prev last es.reverse nil

namespace Linked

variable {next prev next' prev' : α → α} {first last first' last' : α} {mid mid' : List α}

theorem congr (linked : Linked next prev nil first last es)
    (same : ∀ e ∈ es, next' e = next e ∧ prev' e = prev e) :
    Linked next' prev' nil first last es where
  forward := linked.forward.congr fun e member => (same e member).1
  backward := linked.backward.congr fun e member => (same e (List.mem_reverse.mp member)).2

theorem first_eq (linked : Linked next prev nil first last es) : first = entry nil es :=
  linked.forward.entry

theorem last_eq (linked : Linked next prev nil first last es) : last = exit nil es := by
  rw [linked.backward.entry, entry, exit, List.head?_reverse]

theorem around (linked : Linked next prev nil first last (xs ++ mid ++ ys)) :
    (∃ a, Path next first xs a ∧ Path next a mid (entry nil ys) ∧ Path next (entry nil ys) ys nil) ∧
      ∃ b, Path prev last ys.reverse b ∧ Path prev b mid.reverse (exit nil xs) ∧
        Path prev (exit nil xs) xs.reverse nil := by
  constructor
  · obtain ⟨c, front, rest⟩ := linked.forward.split
    obtain ⟨a, start, middle⟩ := front.split
    rw [rest.entry] at middle rest
    exact ⟨a, start, middle, rest⟩
  · have backward := linked.backward
    rw [List.reverse_append, List.reverse_append] at backward
    obtain ⟨b, back, rest⟩ := backward.split
    obtain ⟨d, middle, start⟩ := rest.split
    have same : d = exit nil xs := by rw [start.entry, entry, exit, List.head?_reverse]
    rw [same] at middle start
    exact ⟨b, back, middle, start⟩

theorem at_node (linked : Linked next prev nil first last (xs ++ e :: ys)) :
    next e = entry nil ys ∧ prev e = exit nil xs := by
  have linked : Linked next prev nil first last (xs ++ [e] ++ ys) := by simpa using linked
  obtain ⟨⟨_, -, forward, -⟩, _, -, backward, -⟩ := linked.around
  obtain ⟨rfl, next⟩ := forward
  obtain ⟨rfl, prev⟩ := backward
  exact ⟨next, prev⟩

/-- The same nodes in the same order have the same neighbours. -/
theorem same (linked : Linked next prev nil first last es)
    (linked' : Linked next' prev' nil first' last' es) (member : e ∈ es) :
    next' e = next e ∧ prev' e = prev e := by
  obtain ⟨xs, ys, rfl⟩ := List.append_of_mem member
  obtain ⟨behind, before⟩ := linked.at_node
  obtain ⟨behind', before'⟩ := linked'.at_node
  exact ⟨behind'.trans behind.symm, before'.trans before.symm⟩

/-- Replacing a run between its neighbours. -/
theorem splice [DecidableEq α] (linked : Linked next prev nil first last (xs ++ mid ++ ys))
    (nodup : xs.Nodup) (nodup' : ys.Nodup)
    (inner : Path next' a mid' (entry nil ys)) (inner' : Path prev' b mid'.reverse (exit nil xs))
    (start : first' = if xs = [] then a else first) (stop : last' = if ys = [] then b else last)
    (front : ∀ x ∈ xs, next' x = (if xs.getLast? = some x then a else next x) ∧ prev' x = prev x)
    (back : ∀ y ∈ ys, prev' y = (if ys.head? = some y then b else prev y) ∧ next' y = next y) :
    Linked next' prev' nil first' last' (xs ++ mid' ++ ys) := by
  obtain ⟨⟨_, before, -, after⟩, _, before', -, after'⟩ := linked.around
  constructor
  · have turned := before.redirect nodup start fun x member => (front x member).1
    exact (turned.append inner).append (after.congr fun y member => (back y member).2)
  · have turned : Path prev' last' ys.reverse b := by
      apply before'.redirect (List.nodup_reverse.mpr nodup') (by simpa using stop)
      intro y member
      rw [List.getLast?_reverse]
      exact (back y (List.mem_reverse.mp member)).1
    have rest := after'.congr fun x member => (front x (List.mem_reverse.mp member)).2
    rw [List.reverse_append, List.reverse_append]
    exact turned.append (inner'.append rest)

end Linked
end Ratlib
