import Ratlib.Rlist.Operations
import Ratlib.Library.Runs
import Ratlib.Gen.Contract
import Mathlib.Data.List.TakeWhile

/-! Runs of a linked list against runs of a sequence of elements, over any parent
allocator that meets the contract and whichever of its calls fail. -/
namespace Ratlib.Rlist

/-- A list, its parent's world, and the live elements in the order of the calls that
placed them. -/
structure State (σ : Type u) where
  list : RList
  world : World σ
  live : List Nat

/-- The calls of rlist, and the bytes a client writes into elements. `rlist_push` is an
insertion before NULL, `rlist_pushFront` one before `p->first`. -/
inductive Op where
  | insert (obj size : Nat)
  | resize (obj newSize : Nat)
  | remove (obj count : Nat)
  | clear
  | write (obj i : Nat) (byte : UInt8)

/-- The elements before `obj`, and those from `obj` on; all and none for NULL. -/
def upTo (live : List Nat) (obj : Nat) : List Nat := live.takeWhile (· != obj)
def onFrom (live : List Nat) (obj : Nat) : List Nat := live.dropWhile (· != obj)

/-- What an operation that returns `result` makes of the sequence: a new element before
`obj` or at the back, another one in its place, a run less, nothing left. -/
def Op.edit (live : List Nat) (result : Nat) : Op → List Nat
  | .insert obj _ => if result = 0 then live else upTo live obj ++ result :: onFrom live obj
  | .resize obj _ => if result = 0 then live else live.map fun q => if q = obj then result else q
  | .remove obj count => upTo live obj ++ (onFrom live obj).drop count
  | .clear => []
  | .write .. => live

variable (P : Platform) {σ : Type u} {ι : Type v}

/-- What a call returns, zero where it returns nothing, and the list and the world. -/
def call (A : Ralc σ) (s : State σ) : Op → Nat × RList × World σ
  | .insert obj size => rlistInsert P A s.list s.world obj size
  | .resize obj newSize => rlistResize P A s.list s.world obj newSize
  | .remove obj count => rlistRemove P A s.list s.world obj count
  | .clear => rlistClear P A s.list s.world
  | .write obj i byte =>
    (0, s.list, { s.world with mem := s.world.mem.write (obj + i) [byte] })

/-- Elements are live, runs are in bounds and sizes do not wrap. -/
def Op.Asserts (A : Ralc σ) (limit : Nat) (s : State σ) : Op → Prop
  | .insert obj size => (obj = 0 ∨ obj ∈ s.live) ∧ AllocAsserts P limit size
  | .resize obj newSize => obj ∈ s.live ∧ ResizeAsserts P A limit s.world obj newSize
  | .remove obj count =>
    (obj = 0 ∨ obj ∈ s.live) ∧ (obj = 0 ↔ count = 0) ∧ count ≤ (onFrom s.live obj).length
  | .clear => True
  | .write obj i _ => obj ∈ s.live ∧ i < rlistElemSize P s.world.mem obj

instance (A : Ralc σ) (limit : Nat) (s : State σ) : (op : Op) → Decidable (op.Asserts P A limit s)
  | .insert .. => inferInstanceAs (Decidable ((_ ∨ _) ∧ _))
  | .resize .. | .write .. => inferInstanceAs (Decidable (_ ∧ _))
  | .remove .. => inferInstanceAs (Decidable ((_ ∨ _) ∧ (_ ↔ _) ∧ _))
  | .clear => .isTrue trivial

def step (A : Ralc σ) (limit : Nat) (s : State σ) (op : Op) : Option (State σ) :=
  if op.Asserts P A limit s then
    let (result, p, w) := call P A s op
    some ⟨p, w, op.edit s.live result⟩
  else none

def start (w : World σ) : State σ := ⟨rlistInit, w, []⟩

variable {P} {A : Ralc σ} {owner : ι} {ok : World σ → Blocks ι → Prop} {L : Blocks ι}
  {s s' : State σ} {live : List Nat} {obj : Nat}

theorem upTo_onFrom (live : List Nat) (obj : Nat) : upTo live obj ++ onFrom live obj = live := List.takeWhile_append_dropWhile

theorem onFrom_mem (member : obj ∈ live) : ∃ behind, onFrom live obj = obj :: behind := by
  induction live with
  | nil => cases member
  | cons q live ih =>
    by_cases same : q = obj
    · exact ⟨live, by simp [onFrom, same]⟩
    · obtain ⟨behind, rest⟩ := ih ((List.mem_cons.mp member).resolve_left (Ne.symm same))
      exact ⟨behind, by simpa [onFrom, same] using rest⟩

theorem onFrom_entry (valid : obj = 0 ∨ obj ∈ live) (nonnull : 0 ∉ live) :
    entry 0 (onFrom live obj) = obj := by
  rcases valid with rfl | member
  · have none : onFrom live 0 = [] := by
      rw [onFrom, List.dropWhile_eq_nil_iff]
      intro q inside
      exact bne_iff_ne.mpr (ne_of_mem_of_not_mem inside nonnull)
    rw [none]
    rfl
  · obtain ⟨behind, rest⟩ := onFrom_mem member
    rw [rest]
    rfl

theorem map_replace (nodup : (xs ++ obj :: ys).Nodup) (result : Nat) :
    (xs ++ obj :: ys).map (fun q => if q = obj then result else q) = xs ++ result :: ys := by
  have outside := (List.nodup_cons.mp (List.nodup_middle.mp nodup)).1
  have same : ∀ zs : List Nat, obj ∉ zs → zs.map (fun q => if q = obj then result else q) = zs := by
    intro zs away
    conv_rhs => rw [← List.map_id zs]
    apply List.map_congr_left
    intro q member
    exact if_neg (ne_of_mem_of_not_mem member away)
  rw [List.mem_append] at outside
  rw [List.map_append, List.map_cons, if_pos rfl, same xs (by tauto), same ys (by tauto)]

def Inv (P : Platform) (ok : World σ → Blocks ι → Prop) (owner : ι) (s : State σ) : Prop :=
  ∃ L, Holds P ok owner s.list s.world L s.live

def Fails (result : Nat) : Op → Prop
  | .insert .. | .resize .. => result = 0
  | .remove .. | .clear | .write .. => False

def Op.Returns (live : List Nat) (result : Nat) : Op → Prop
  | .remove obj count => result = entry 0 ((onFrom live obj).drop count)
  | .clear => result = 0
  | .insert .. | .resize .. | .write .. => True

theorem Holds.nonnull (serves : Serves P A owner ok limit) (holds : Holds P ok owner p w L objs) :
    0 ∉ objs := fun member => absurd (holds.above serves member) (Nat.not_lt_zero _)

/-- What a client writes into elements is outside the headers. -/
theorem Holds.client (serves : Serves P A owner ok limit) (holds : Holds P ok owner p w L objs)
    {m : Mem} (outside : ∀ x, (∀ q ∈ objs, x < q ∨ q + rlistElemSize P w.mem q ≤ x) → m x = w.mem x) :
    Holds P ok owner p { w with mem := m } L objs ∧
      ∀ q ∈ objs, rlistElemSize P m q = rlistElemSize P w.mem q := by
  have held : ∀ q ∈ objs, ∃ size, L (objBlock P q) = some ⟨owner, headerSize P + size⟩ :=
    fun q member => ⟨_, holds.held q member⟩
  have fields : ∀ q ∈ objs, ∀ f, field P m (objElem P q) f = field P w.mem (objElem P q) f := by
    intro q member f
    apply field_congr
    intro x inside
    apply outside
    intro r member'
    by_contra payload
    have := off_headers serves holds.ok held (holds.held r member') (x := x) (by omega) member
    have above := holds.above serves member
    have := sizeofElem_le (P := P)
    have := inside.1
    have := inside.2
    simp only [objElem] at *
    omega
  refine ⟨⟨serves.client holds.ok fun x away => ?_, holds.nodup, ?_, holds.linked.congr ?_, holds.count⟩,
    fun q member => fields q member .size⟩
  · refine (outside x fun q member => ?_).symm
    by_contra inside
    exact away (holds.payload serves member (by constructor <;> omega))
  · intro q member
    rw [rlistElemSize, fields q member]
    exact holds.held q member
  · intro q member
    exact ⟨congrArg (objOf P) (fields q member .next), congrArg (objOf P) (fields q member .prev)⟩

theorem Holds.remove (serves : Serves P A owner ok limit) (holds : Holds P ok owner p w L live)
    (valid : obj = 0 ∨ obj ∈ live) (null : obj = 0 ↔ n = 0) (inside : n ≤ (onFrom live obj).length)
    (result : rlistRemove P A p w obj n = (b, p', w')) :
    b = entry 0 ((onFrom live obj).drop n) ∧
      Unmoved P w.mem w'.mem (upTo live obj ++ (onFrom live obj).drop n) ∧
      ∃ L', Holds P ok owner p' w' L' (upTo live obj ++ (onFrom live obj).drop n) := by
  have whole : upTo live obj ++ onFrom live obj = live := upTo_onFrom live obj
  have first := onFrom_entry valid (holds.nonnull serves)
  cases n with
  | zero =>
    cases result
    rw [List.drop_zero, whole, first]
    exact ⟨(null.mpr rfl).symm, fun _ _ => ⟨rfl, fun _ _ => rfl⟩, L, holds⟩
  | succ n =>
    obtain ⟨behind, rest⟩ := onFrom_mem (valid.resolve_left fun zero => by simpa using null.mp zero)
    rw [rest, List.length_cons] at inside
    have length : (behind.take n).length = n := List.length_take_of_le (by omega)
    rw [rest, ← List.take_append_drop n behind, ← List.cons_append, ← List.append_assoc] at whole
    rw [← whole] at holds
    rw [rest, List.drop_succ_cons]
    rw [← length] at result
    exact rlistRemove_cases serves holds result

theorem Holds.clear (serves : Serves P A owner ok limit) (holds : Holds P ok owner p w L live)
    (result : rlistClear P A p w = (b, p', w')) :
    b = 0 ∧ ∃ L', Holds P ok owner p' w' L' [] := by
  have first := holds.linked.first_eq
  have nonnull := holds.nonnull serves
  have length := holds.count
  rw [rlistClear, first, length] at result
  cases live with
  | nil =>
    obtain ⟨null, -, kept⟩ :=
      holds.remove serves (n := 0) (Or.inl rfl) Iff.rfl (Nat.zero_le _) result
    exact ⟨null, kept⟩
  | cons q live =>
    have positive : q ≠ 0 := fun zero => nonnull (zero ▸ List.mem_cons_self)
    have none : upTo (q :: live) q = [] := by simp [upTo]
    have all : onFrom (q :: live) q = q :: live := by simp [onFrom]
    obtain ⟨null, -, kept⟩ := holds.remove serves (Or.inr List.mem_cons_self)
      (by simpa using positive) (by rw [all]) result
    rw [all, List.drop_length] at null
    rw [none, all, List.drop_length] at kept
    exact ⟨null, kept⟩

theorem call_effect (serves : Serves P A owner ok limit) (holds : Holds P ok owner s.list s.world L s.live)
    (asserts : op.Asserts P A limit s) (called : call P A s op = (result, p', w')) :
    (∃ L', Holds P ok owner p' w' L' (op.edit s.live result)) ∧ op.Returns s.live result ∧
      (Fails result op → p' = s.list) := by
  cases op with
  | insert obj size =>
    obtain ⟨valid, room⟩ := asserts
    have first := onFrom_entry valid (holds.nonnull serves)
    have split := holds
    rw [← upTo_onFrom s.live obj] at split
    have inserted : rlistInsert P A s.list s.world (entry 0 (onFrom s.live obj)) size =
        (result, p', w') := by
      rw [first]
      exact called
    obtain ⟨-, effect⟩ := rlistInsert_cases serves split room inserted
    simp only [Op.edit, Op.Returns, Fails, true_and]
    split at effect
    case isTrue null =>
      obtain ⟨same, after⟩ := effect
      rw [upTo_onFrom] at after
      exact ⟨⟨L, by rwa [if_pos null]⟩, fun _ => same⟩
    case isFalse placed =>
      obtain ⟨-, -, L', after, -⟩ := effect
      exact ⟨⟨L', by rwa [if_neg placed]⟩, fun null => absurd null placed⟩
  | resize obj newSize =>
    obtain ⟨member, room⟩ := asserts
    obtain ⟨behind, rest⟩ := onFrom_mem member
    have whole : upTo s.live obj ++ obj :: behind = s.live := by rw [← rest, upTo_onFrom]
    rw [← whole] at holds
    have effect := rlistResize_cases serves holds room called
    simp only [Op.edit, Op.Returns, Fails, true_and]
    split at effect
    case isTrue null =>
      obtain ⟨same, after, -⟩ := effect
      rw [whole] at after
      exact ⟨⟨L, by rwa [if_pos null]⟩, fun _ => same⟩
    case isFalse placed =>
      obtain ⟨-, -, L', after⟩ := effect
      refine ⟨⟨L', ?_⟩, fun null => absurd null placed⟩
      have replaced := map_replace holds.nodup result
      rw [whole] at replaced
      rwa [if_neg placed, replaced]
  | remove obj count =>
    obtain ⟨valid, null, inside⟩ := asserts
    obtain ⟨reply, -, after⟩ := holds.remove serves valid null inside called
    exact ⟨after, reply, False.elim⟩
  | clear =>
    obtain ⟨reply, after⟩ := holds.clear serves called
    exact ⟨after, reply, False.elim⟩
  | write obj i byte =>
    obtain ⟨member, inside⟩ := asserts
    cases called
    refine ⟨⟨L, (holds.client serves fun x away => Mem.write_out ?_).1⟩, trivial, False.elim⟩
    have := away obj member
    rw [List.length_singleton]
    omega

theorem step_cases (taken : step P A limit s op = some s') :
    op.Asserts P A limit s ∧ ∃ result, call P A s op = (result, s'.list, s'.world) ∧
      s'.live = op.edit s.live result := by
  rw [step] at taken
  split at taken
  case isTrue asserts =>
    cases taken
    exact ⟨asserts, _, rfl, rfl⟩
  case isFalse => cases taken

theorem step_inv (serves : Serves P A owner ok limit) (inv : Inv P ok owner s)
    (taken : step P A limit s op = some s') : Inv P ok owner s' := by
  obtain ⟨L, holds⟩ := inv
  obtain ⟨asserts, result, called, live⟩ := step_cases taken
  rw [Inv, live]
  exact (call_effect serves holds asserts called).1

theorem inv_start (initial : ok w L) : Inv P ok owner (start w) :=
  ⟨L, initial, List.nodup_nil, by simp [start], ⟨rfl, rfl⟩, rfl⟩

/-- Following `next` from `p->first`, and `prev` from `p->last`, visits the live elements
in order. -/
structure Enumerates (P : Platform) (s : State σ) : Prop where
  links : Linked (rlistNext P s.world.mem) (rlistPrev P s.world.mem) 0 s.list.first s.list.last s.live
  nonnull : 0 ∉ s.live
  nodup : s.live.Nodup
  first : s.list.first = 0 ↔ s.live = []
  last : s.list.last = 0 ↔ s.live = []
  count : s.list.count = s.live.length

theorem Holds.enumerates (serves : Serves P A owner ok limit)
    (holds : Holds P ok owner s.list s.world L s.live) : Enumerates P s where
  links := holds.linked
  nonnull := holds.nonnull serves
  nodup := holds.nodup
  count := holds.count
  first := by
    rw [holds.linked.first_eq]
    have nonnull := holds.nonnull serves
    cases live : s.live with
    | nil => simp [entry]
    | cons q rest =>
      rw [live] at nonnull
      simpa [entry] using fun zero : q = 0 => nonnull (zero ▸ List.mem_cons_self)
  last := by
    rw [holds.linked.last_eq]
    have nonnull := holds.nonnull serves
    rcases List.eq_nil_or_concat s.live with none | ⟨rest, q, live⟩
    · simp [none, exit]
    · rw [live] at nonnull
      simpa [live, exit] using fun zero : q = 0 => nonnull (by simp [zero])

/-- After any run the links of the list make the sequence that the calls and their
results describe; a removal returns the element behind the run, and a call that fails
leaves the list and every link as they were. -/
theorem rlist_refines (serves : Serves P A owner ok limit) (initial : ok w L)
    (ran : run (step P A limit) (start w) ops = some s) :
    Enumerates P s ∧ ∀ op result p' w', op.Asserts P A limit s →
      call P A s op = (result, p', w') → op.Returns s.live result ∧
        (Fails result op → p' = s.list ∧ op.edit s.live result = s.live ∧ ∀ q ∈ s.live,
          rlistNext P w'.mem q = rlistNext P s.world.mem q ∧
            rlistPrev P w'.mem q = rlistPrev P s.world.mem q) := by
  obtain ⟨L', holds⟩ := run_invariant (Inv P ok owner) (fun _ _ _ => step_inv serves)
    (inv_start initial) ran
  refine ⟨holds.enumerates serves, fun op result p' w' asserts called => ?_⟩
  obtain ⟨⟨L'', after⟩, returns, fails⟩ := call_effect serves holds asserts called
  refine ⟨returns, fun failed => ?_⟩
  have same : op.edit s.live result = s.live := by
    cases op with
    | insert | resize => exact if_pos failed
    | remove | clear | write => cases failed
  rw [same] at after
  exact ⟨fails failed, same, fun q member => holds.linked.same after.linked member⟩

theorem rlist_refines_lp64 : ∃ s, run (step .lp64 (Gen.ralcGen .lp64) 4096) (start Gen.kib)
      [.insert 0 4, .insert 0 8, .insert 4144 1, .write 4144 3 7, .resize 4144 60, .remove 4272 1] =
        some s ∧ s.live = [4336, 4208] ∧ Enumerates .lp64 s := by
  have facts : (run (step .lp64 (Gen.ralcGen .lp64) 4096) (start Gen.kib)
      [.insert 0 4, .insert 0 8, .insert 4144 1, .write 4144 3 7, .resize 4144 60,
        .remove 4272 1]).map (fun s => s.live) = some [4336, 4208] := by decide +kernel
  obtain ⟨s, ran, live⟩ := Option.map_eq_some_iff.mp facts
  exact ⟨s, ran, live, (rlist_refines (Gen.kib_serves ()) Gen.kib_ok ran).1⟩

end Ratlib.Rlist
