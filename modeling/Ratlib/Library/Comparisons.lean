import Mathlib.Data.List.Shortlex
import Mathlib.Data.Int.Order.Basic

/-! Three-way comparisons. A comparison returns a number whose sign tells how the two
values are ordered; only the sign matters. Comparisons of parts are put together to
comparisons of the whole: by one part first, then by another. -/
namespace Ratlib

variable {α : Type u} {β : Type v} {lt r : α → α → Prop} {s : β → β → Prop} {a b c x y : α}
  {xs ys : List α} {cmp cmp' cmp'' : Int}

/-- The sign of `cmp` tells how `a` and `b` are ordered. -/
structure Tells (lt : α → α → Prop) (a b : α) (cmp : Int) : Prop where
  less : cmp < 0 ↔ lt a b
  same : cmp = 0 ↔ a = b
  greater : 0 < cmp ↔ lt b a

namespace Tells

theorem congr {lt' : β → β → Prop} {a' b' : β} (tells : Tells lt a b cmp) (less : lt' a' b' ↔ lt a b)
    (same : a' = b' ↔ a = b) (greater : lt' b' a' ↔ lt b a) : Tells lt' a' b' cmp where
  less := tells.less.trans less.symm
  same := tells.same.trans same.symm
  greater := tells.greater.trans greater.symm

theorem swap (tells : Tells lt a b cmp) : Tells lt b a (-cmp) where
  less := Int.neg_neg_iff_pos.trans tells.greater
  same := Int.neg_eq_zero.trans (tells.same.trans eq_comm)
  greater := Int.neg_pos.trans tells.less

theorem sign_eq (tells : Tells lt a b cmp) (tells' : Tells lt a b cmp') : cmp.sign = cmp'.sign := by
  rcases Int.lt_trichotomy cmp 0 with less | same | greater
  · rw [Int.sign_eq_neg_one_of_neg less,
      Int.sign_eq_neg_one_of_neg (tells'.less.mpr (tells.less.mp less))]
  · rw [same, tells'.same.mpr (tells.same.mp same)]
  · rw [Int.sign_eq_one_of_pos greater,
      Int.sign_eq_one_of_pos (tells'.greater.mpr (tells.greater.mp greater))]

theorem sign_swap (tells : Tells lt a b cmp) (tells' : Tells lt b a cmp') : cmp'.sign = -cmp.sign := by
  rw [sign_eq tells' tells.swap, Int.sign_neg]

theorem not_greater (tells : Tells lt a b cmp) : cmp ≤ 0 ↔ lt a b ∨ a = b := by
  rw [← tells.less, ← tells.same]
  exact Int.le_iff_lt_or_eq

theorem trans [IsTrans α lt] (first : Tells lt a b cmp) (second : Tells lt b c cmp')
    (third : Tells lt a c cmp'') (le : cmp ≤ 0) (le' : cmp' ≤ 0) : cmp'' ≤ 0 := by
  rw [first.not_greater] at le
  rw [second.not_greater] at le'
  rw [third.not_greater]
  rcases le with less | rfl
  · rcases le' with less' | rfl
    · exact Or.inl (IsTrans.trans _ _ _ less less')
    · exact Or.inl less
  · exact le'

/-- First by one part, then by the other. -/
theorem prod {x y : β} (first : Tells r a b cmp) (second : a = b → Tells s x y cmp') :
    Tells (Prod.Lex r s) (a, x) (b, y) (if cmp ≠ 0 then cmp else cmp') := by
  by_cases same : a = b
  · have equal := first.same.mpr same
    have irrefl : ¬r b b := fun less => by
      have := first.less.mpr (same ▸ less)
      omega
    have rest := second same
    subst same
    rw [if_neg (not_not_intro equal)]
    refine rest.congr ?_ ?_ ?_
    · simp [Prod.lex_def, irrefl]
    · simp
    · simp [Prod.lex_def, irrefl]
  · have different := mt first.same.mp same
    rw [if_pos different]
    refine first.congr ?_ ?_ ?_
    · simp [Prod.lex_def, same]
    · simp [same]
    · simp [Prod.lex_def, Ne.symm same]

end Tells

theorem tells_sub (a b : Nat) : Tells (· < ·) a b ((a : Int) - b) where
  less := by omega
  same := by omega
  greater := by omega

theorem tells_nil : Tells (List.Lex lt) ([] : List α) [] 0 where
  less := by simp
  same := by simp
  greater := by simp

theorem tells_nil_cons (less : cmp < 0) : Tells (List.Lex lt) [] (y :: ys) cmp where
  less := by simp [less]
  same := by simp [less.ne]
  greater := by simp [less.le]

theorem tells_cons_nil (greater : 0 < cmp) : Tells (List.Lex lt) (x :: xs) [] cmp where
  less := by simp [greater.le]
  same := by simp [greater.ne']
  greater := by simp [greater]

/-- Sequences by their heads, then by their tails. -/
theorem tells_cons (head : Tells lt x y cmp) (tail : Tells (List.Lex lt) xs ys cmp') :
    Tells (List.Lex lt) (x :: xs) (y :: ys) (if cmp ≠ 0 then cmp else cmp') := by
  refine (head.prod fun _ => tail).congr ?_ ?_ ?_
  · rw [List.cons_lex_cons_iff, Prod.lex_def]
  · rw [List.cons.injEq, Prod.mk.injEq]
  · rw [List.cons_lex_cons_iff, Prod.lex_def]

/-- Sequences by their lengths, then by their elements. -/
theorem tells_shortlex (sizes : Tells (· < ·) xs.length ys.length cmp)
    (elements : xs.length = ys.length → Tells (List.Lex lt) xs ys cmp') :
    Tells (List.Shortlex lt) xs ys (if cmp ≠ 0 then cmp else cmp') := by
  refine (sizes.prod elements).congr Iff.rfl ?_ Iff.rfl
  rw [Prod.mk.injEq]
  exact ⟨fun same => ⟨congrArg List.length same, same⟩, fun both => both.2⟩

theorem lex_isTrans [IsTrans α lt] : IsTrans (List α) (List.Lex lt) where
  trans _ _ _ := List.lex_trans (IsTrans.trans _ _ _)

theorem shortlex_isTrans [IsTrans α lt] : IsTrans (List α) (List.Shortlex lt) where
  trans a b c first second := by
    rw [List.shortlex_def] at first second ⊢
    rcases first with shorter | ⟨same, less⟩
    · exact Or.inl (by omega)
    · rcases second with shorter | ⟨same', less'⟩
      · exact Or.inl (by omega)
      · exact Or.inr ⟨same.trans same', List.lex_trans (IsTrans.trans _ _ _) less less'⟩

end Ratlib
