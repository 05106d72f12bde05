import Ratlib.Cmp.Model
import Ratlib.Library.Comparisons

/-! The comparators of byte strings are total orders by their sign: by length and then by
bytes, or lexicographic, and the latter is that of NUL-terminated strings. -/
namespace Ratlib.Cmp

open Arr

section Strings
variable {m : Mem} {left right n k rounds : Nat} {x y : List UInt8} {told : Int}

instance byte_trans : IsTrans UInt8 (· < ·) where
  trans _ _ _ first second := UInt8.lt_trans first second

theorem cmp_tells (a b : Nat) : Tells (· < ·) a b (cmp a b) := by
  rw [cmp]
  constructor <;> split <;> split <;> omega

theorem byteCmp_tells (m : Mem) (left right : Nat) :
    Tells (· < ·) (m left) (m right) (byteCmp m left right) :=
  (tells_sub (m left).toNat (m right).toNat).congr UInt8.lt_iff_toNat_lt UInt8.toNat_inj.symm
    UInt8.lt_iff_toNat_lt

theorem memcmp_tells (m : Mem) (left right n : Nat) :
    Tells (List.Lex (· < ·)) (m.read left n) (m.read right n) (memcmp m left right n) := by
  induction n generalizing left right with
  | zero => exact tells_nil
  | succ n ih =>
    rw [Mem.read_succ, Mem.read_succ, memcmp]
    exact tells_cons (byteCmp_tells m left right) (ih (left + 1) (right + 1))

/-- Sequences of two lengths by their common part, then by their lengths. -/
theorem common_tells (m : Mem) (left n right k : Nat) :
    let common := memcmp m left right (if n < k then n else k)
    Tells (List.Lex (· < ·)) (m.read left n) (m.read right k)
      (if common ≠ 0 then common else cmp n k) := by
  induction n generalizing left right k with
  | zero =>
    cases k with
    | zero => exact tells_nil
    | succ k =>
      rw [Mem.read_zero, Mem.read_succ]
      refine tells_nil_cons ?_
      rw [if_pos (Nat.succ_pos k), memcmp, if_neg (not_not_intro rfl), cmp]
      simp
  | succ n ih =>
    cases k with
    | zero =>
      rw [Mem.read_zero, Mem.read_succ]
      exact tells_cons_nil (by simp [memcmp, cmp])
    | succ k =>
      have shorter : (if n + 1 < k + 1 then n + 1 else k + 1) = (if n < k then n else k) + 1 := by
        split <;> split <;> omega
      have sizes : cmp (n + 1) (k + 1) = cmp n k := by
        simp only [cmp, gt_iff_lt, Nat.add_lt_add_iff_right]
      have step := tells_cons (byteCmp_tells m left right) (ih (left + 1) (right + 1) k)
      rw [Mem.read_succ, Mem.read_succ, shorter, memcmp, sizes]
      dsimp only
      by_cases same : byteCmp m left right = 0
      · rw [if_neg (not_not_intro same)] at step ⊢
        exact step
      · rw [if_pos same] at step ⊢
        rwa [if_pos same]

theorem rcmpBuf_tells (result : rcmpBuf m left n right k = some told) :
    Tells (List.Shortlex (· < ·)) (m.read left n) (m.read right k) told := by
  obtain rfl := Option.some.inj result
  refine tells_shortlex ?_ fun same => ?_
  · rw [Mem.read_length, Mem.read_length]
    exact cmp_tells n k
  · rw [Mem.read_length, Mem.read_length] at same
    subst same
    exact memcmp_tells m left right n

theorem rcmpStr_tells (result : rcmpStr m left n right k = some told) :
    Tells (List.Lex (· < ·)) (m.read left n) (m.read right k) told := by
  obtain rfl := Option.some.inj result
  exact common_tells m left n right k

/-- `strcmp` finds the end of the shorter string, or a difference before it. -/
theorem strcmp_tells (long : x.length < rounds) (ended : m.read left (x.length + 1) = x ++ [0])
    (ended' : m.read right (y.length + 1) = y ++ [0]) (inner : 0 ∉ x) (inner' : 0 ∉ y) :
    ∃ told, strcmp m rounds left right = some told ∧ Tells (List.Lex (· < ·)) x y told := by
  induction x generalizing rounds left right y with
  | nil =>
    obtain ⟨rounds, rfl⟩ := Nat.exists_eq_succ_of_ne_zero (Nat.ne_zero_of_lt long)
    have stop : m left = 0 := by simpa [Mem.read_succ, Mem.read_zero] using ended
    have head := byteCmp_tells m left right
    rw [strcmp]
    cases y with
    | nil =>
      have stop' : m right = 0 := by simpa [Mem.read_succ, Mem.read_zero] using ended'
      rw [if_neg (not_not_intro (head.same.mpr (stop.trans stop'.symm))), if_pos stop]
      exact ⟨0, rfl, tells_nil⟩
    | cons c y =>
      obtain ⟨first, -⟩ : m right = c ∧ _ := by simpa [Mem.read_succ m right] using ended'
      have less : m left < m right := by
        rw [stop, first]
        exact UInt8.pos_iff_ne_zero.mpr fun zero => inner' (zero ▸ List.mem_cons_self)
      have negative := head.less.mpr less
      rw [if_pos negative.ne]
      exact ⟨_, rfl, tells_nil_cons negative⟩
  | cons b x ih =>
    obtain ⟨rounds, rfl⟩ := Nat.exists_eq_succ_of_ne_zero (Nat.ne_zero_of_lt long)
    obtain ⟨first, rest⟩ : m left = b ∧ _ := by simpa [Mem.read_succ m left] using ended
    have head := byteCmp_tells m left right
    have more : m left ≠ 0 := fun zero => inner (first ▸ zero ▸ List.mem_cons_self)
    rw [strcmp]
    cases y with
    | nil =>
      have stop' : m right = 0 := by simpa [Mem.read_succ, Mem.read_zero] using ended'
      have positive := head.greater.mpr (by
        rw [stop']
        exact UInt8.pos_iff_ne_zero.mpr more)
      rw [if_pos positive.ne']
      exact ⟨_, rfl, tells_cons_nil positive⟩
    | cons c y =>
      obtain ⟨first', rest'⟩ : m right = c ∧ _ := by simpa [Mem.read_succ m right] using ended'
      obtain ⟨told, found, tail⟩ := ih (Nat.lt_of_succ_lt_succ long) rest rest'
        (fun member => inner (List.mem_cons_of_mem b member))
        (fun member => inner' (List.mem_cons_of_mem c member))
      rw [first, first'] at head
      have whole := tells_cons head tail
      by_cases same : byteCmp m left right = 0
      · rw [if_neg (not_not_intro same)] at whole ⊢
        rw [if_neg more]
        exact ⟨told, found, whole⟩
      · rw [if_pos same] at whole ⊢
        exact ⟨_, rfl, whole⟩

end Strings

section Results

/-- What a comparator returns for two strings, wherever in a memory they lie. -/
def Returns (cmpFn : Rcmp) (x y : List UInt8) (told : Int) : Prop :=
  ∃ m left right, Mem.read m left x.length = x ∧ Mem.read m right y.length = y ∧
    cmpFn m left x.length right y.length = some told

/-- By its sign a total order on byte strings, wherever they lie. -/
structure TotalOrder (cmpFn : Rcmp) : Prop where
  returns : (cmpFn m left leftSize right rightSize).isSome
  zero : Returns cmpFn x y told → (told = 0 ↔ x = y)
  antisymm : Returns cmpFn x y told → Returns cmpFn y x told' → told'.sign = -told.sign
  trans : Returns cmpFn x y a → Returns cmpFn y z b → Returns cmpFn x z c → a ≤ 0 → b ≤ 0 → c ≤ 0

/-- A string with a NUL behind it and none inside. -/
structure Terminated (m : Mem) (a : Nat) (x : List UInt8) : Prop where
  ended : m.read a (x.length + 1) = x ++ [0]
  inner : 0 ∉ x

variable {P : Platform} {cmpFn : Rcmp} {lt : List UInt8 → List UInt8 → Prop} {x y : List UInt8} {told : Int}

/-- A comparator that tells a transitive order on what it reads is a total order. -/
theorem totalOrder_of_tells [IsTrans _ lt] (returns : ∀ m left n right k, (cmpFn m left n right k).isSome)
    (tells : ∀ x y told, Returns cmpFn x y told → Tells lt x y told) : TotalOrder cmpFn where
  returns := returns _ _ _ _ _
  zero result := (tells _ _ _ result).same
  antisymm first second := (tells _ _ _ first).sign_swap (tells _ _ _ second)
  trans first second third := (tells _ _ _ first).trans (tells _ _ _ second) (tells _ _ _ third)

theorem returns_rcmpBuf (returns : Returns rcmpBuf x y told) :
    Tells (List.Shortlex (· < ·)) x y told := by
  obtain ⟨m, left, right, here, there, result⟩ := returns
  have tells := rcmpBuf_tells result
  rwa [here, there] at tells

theorem returns_rcmpStr (returns : Returns rcmpStr x y told) : Tells (List.Lex (· < ·)) x y told := by
  obtain ⟨m, left, right, here, there, result⟩ := returns
  have tells := rcmpStr_tells result
  rwa [here, there] at tells

theorem prefix_less (front : x <+: y) (proper : x ≠ y) : x < y := by
  obtain ⟨rest, rfl⟩ := front
  cases rest with
  | nil => exact absurd (List.append_nil x).symm proper
  | cons b rest =>
    have less := List.Lex.append_left (· < ·) (List.Lex.nil (a := b) (l := rest)) x
    rwa [List.append_nil] at less

/-- `rcmp_buf` and `rcmp_str` are total orders on all byte strings; `rcmp_str` is the
lexicographic one, with a proper prefix first, and the one of `rcmp_cstr` on strings
without NUL. -/
theorem rcmp_orders : TotalOrder rcmpBuf ∧ TotalOrder rcmpStr ∧
    (∀ x y told, Returns rcmpStr x y told → (told < 0 ↔ x < y) ∧ (x <+: y → x ≠ y → told < 0)) ∧
    ∀ m left leftSize right rightSize x y, Terminated m left x → Terminated m right y →
      x.length ≤ P.sizeMax → ∃ told, rcmpCstr P m left leftSize right rightSize = some told ∧
        ∀ told', Returns rcmpStr x y told' → told'.sign = told.sign := by
  have lexTrans : IsTrans (List UInt8) (List.Lex (· < ·)) := lex_isTrans
  have shortlexTrans : IsTrans (List UInt8) (List.Shortlex (· < ·)) := shortlex_isTrans
  refine ⟨totalOrder_of_tells (fun _ _ _ _ _ => rfl) fun _ _ _ => returns_rcmpBuf,
    totalOrder_of_tells (fun _ _ _ _ _ => rfl) fun _ _ _ => returns_rcmpStr, ?_, ?_⟩
  · intro x y told returns
    have tells := returns_rcmpStr returns
    exact ⟨tells.less, fun front proper => tells.less.mpr (prefix_less front proper)⟩
  · intro m left leftSize right rightSize x y here there small
    obtain ⟨told, found, tells⟩ := strcmp_tells (Nat.lt_succ_of_le small) here.ended there.ended
      here.inner there.inner
    exact ⟨told, found, fun told' returns => (returns_rcmpStr returns).sign_eq tells⟩

theorem rcmp_orders_lp64 :
    let m := Mem.write (Mem.write (fun _ => 7) 100 [98, 0]) 200 [97, 97, 0]
    ∃ told, rcmpCstr .lp64 m 100 1 200 2 = some told ∧ Returns rcmpStr [98] [97, 97] 1 ∧
      told.sign = 1 := by
  intro m
  have returned : Returns rcmpStr [98] [97, 97] 1 := by
    refine ⟨m, 100, 200, ?_, ?_, ?_⟩ <;> decide
  obtain ⟨told, found, agrees⟩ := (rcmp_orders (P := .lp64)).2.2.2 m 100 1 200 2 [98] [97, 97]
    ⟨by decide, by decide⟩ ⟨by decide, by decide⟩ (by decide)
  exact ⟨told, found, returned, (agrees 1 returned).symm⟩

end Results
end Ratlib.Cmp
