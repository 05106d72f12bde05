import Ratlib.Alloc.Clients
import Ratlib.Dyn.Correctness
import Ratlib.Rlist.Correctness
import Ratlib.Rmap.Correctness

/-! The containers as clients of an allocator: a dynamic array, a linked list and a hash
map rest on their own blocks only. -/
namespace Ratlib

variable {P : Platform} {σ : Type u} {ι : Type v} {A : Ralc σ} {limit : Nat} {owner : ι}
  {ok ok' : World σ → Blocks ι → Prop} {L : Blocks ι} {w' : World σ}

namespace Dyn

theorem Holds.carried {p : RDyn} {w : World σ} (holds : Holds ok owner p w L) (after : ok' w' L) :
    Holds ok' owner p w' L where
  ok := after
  positive := holds.positive
  count := holds.count
  empty := holds.empty
  block := holds.block

def client (P : Platform) (A : Ralc σ) (limit elemSize : Nat) (ι : Type v) : Client P A limit ι where
  State := State σ
  Op := Op
  View := List (List UInt8)
  step := step P A limit
  view := State.list
  world := State.world
  enter s w := { s with world := w }
  Holds ok owner L s := s.dyn.elemSize = elemSize ∧ Holds ok owner s.dyn s.world L
  Sound s := s.list.length = s.dyn.count ∧ s.dyn.count ≤ s.dyn.cap ∧ s.dyn.elemSize = elemSize
  Effect s op s' := op.Splices (call P A s op).1 s.list s'.list
  world_enter _ _ := rfl
  enter_world _ := rfl
  enter_enter _ _ _ := rfl
  rests holds := holds.2.ok
  kept _ _ holds after same := ⟨⟨holds.1, holds.2.carried after⟩, holds.2.contents_kept same⟩
  sound _ holds := ⟨Arr.elems_length, holds.2.count, holds.1⟩
  effect {_ _ L s op s'} serves holds taken := by
    obtain ⟨asserts, rfl⟩ := step_call taken
    obtain ⟨⟨size, L', after⟩, effect⟩ := call_effect serves ⟨holds.1, L, holds.2⟩ asserts
    exact ⟨⟨L', size, after⟩, effect⟩

end Dyn

namespace Rlist

/-- An element by its links, its size and its bytes. -/
def cell (P : Platform) (m : Mem) (q : Nat) : Nat × Nat × Nat × List UInt8 :=
  (q, rlistPrev P m q, rlistNext P m q, Mem.read m q (rlistElemSize P m q))

theorem Holds.cell_kept {p : RList} {w : World σ} {objs : List Nat}
    (serves : Serves P A owner ok limit) (holds : Holds P ok owner p w L objs) (member : q ∈ objs)
    (same : Set.EqOn w.mem m' L.bytes) : cell P m' q = cell P w.mem q := by
  have fields : ∀ f, field P m' (objElem P q) f = field P w.mem (objElem P q) f :=
    fun f => field_kept (holds.above serves member) (holds.held q member) same
  obtain ⟨size, bytes⟩ := holds.unmoved serves same q member
  rw [cell, cell, size, Mem.read_congr bytes, rlistPrev, rlistNext, fields, fields]
  rfl

def Op.Spares (q : Nat) : Op → Prop
  | .resize obj _ | .write obj _ _ => q ≠ obj
  | .insert .. | .remove .. | .clear => True

/-- A call returns what the sequence of elements says, and edits that sequence; the other
elements keep their bytes. -/
structure Effect (P : Platform) (A : Ralc σ) (s : State σ) (op : Op) (s' : State σ) : Prop where
  called : ∃ result, call P A s op = (result, s'.list, s'.world) ∧ op.Returns s.live result ∧
    s'.live = op.edit s.live result ∧ (Fails result op → s'.list = s.list)
  others : ∀ q ∈ s.live, q ∈ s'.live → op.Spares q →
    Mem.read s'.world.mem q (rlistElemSize P s'.world.mem q) =
      Mem.read s.world.mem q (rlistElemSize P s.world.mem q)

variable {s s' : State σ} {live : List Nat}

theorem Holds.apart {p : RList} {w : World σ} (serves : Serves P A owner ok limit)
    (holds : Holds P ok owner p w L live) (q_mem : q ∈ live) (r_mem : r ∈ live) (different : q ≠ r) :
    q + rlistElemSize P w.mem q ≤ r ∨ r + rlistElemSize P w.mem r ≤ q := by
  have above := holds.above serves q_mem
  have above' := holds.above serves r_mem
  have := serves.separate holds.ok _ _ _ _ (holds.held q q_mem) (holds.held r r_mem)
    (objBlock_ne above above' different)
  simp only [objBlock] at this
  omega

theorem call_spares (serves : Serves P A owner ok limit)
    (holds : Holds P ok owner s.list s.world L s.live) (asserts : op.Asserts P A limit s)
    (called : call P A s op = (result, p', w')) (member : q ∈ s.live)
    (stays : q ∈ op.edit s.live result) (spared : op.Spares q) :
    rlistElemSize P w'.mem q = rlistElemSize P s.world.mem q ∧
      Set.EqOn s.world.mem w'.mem (Set.Ico q (q + rlistElemSize P s.world.mem q)) := by
  cases op with
  | insert obj size =>
    obtain ⟨valid, room⟩ := asserts
    have first := onFrom_entry valid (holds.nonnull serves)
    rw [← upTo_onFrom s.live obj] at holds member
    have inserted : rlistInsert P A s.list s.world (entry 0 (onFrom s.live obj)) size =
        (result, p', w') := by
      rw [first]
      exact called
    exact (rlistInsert_cases serves holds room inserted).1 q member
  | resize obj newSize =>
    obtain ⟨inside, room⟩ := asserts
    obtain ⟨behind, rest⟩ := onFrom_mem inside
    have whole : upTo s.live obj ++ obj :: behind = s.live := by rw [← rest, upTo_onFrom]
    rw [← whole] at holds member
    have effect := rlistResize_cases serves holds room called
    split at effect
    case isTrue => exact holds.unmoved serves effect.2.2 q member
    case isFalse =>
      refine effect.2.1.unmoved q ?_
      rw [List.mem_append, List.mem_cons] at member
      exact List.mem_append.mpr (member.imp_right fun tail => tail.resolve_left spared)
  | remove obj count =>
    obtain ⟨valid, null, inside⟩ := asserts
    exact (holds.remove serves valid null inside called).2.1 q stays
  | clear => cases stays
  | write obj i byte =>
    obtain ⟨there, inside⟩ := asserts
    cases called
    have outside : ∀ x, x < obj + i ∨ obj + i + 1 ≤ x →
        s.world.mem.write (obj + i) [byte] x = s.world.mem x := fun x away => Mem.write_out away
    refine ⟨(holds.client serves fun x away => outside x ?_).2 q member, fun x within => ?_⟩
    · have := away obj there
      omega
    · have := holds.apart serves member there spared
      have := within.1
      have := within.2
      exact (outside x (by omega)).symm

theorem step_effect (serves : Serves P A owner ok limit)
    (holds : Holds P ok owner s.list s.world L s.live) (taken : step P A limit s op = some s') :
    (∃ L', Holds P ok owner s'.list s'.world L' s'.live) ∧ Effect P A s op s' := by
  obtain ⟨asserts, result, called, live⟩ := step_cases taken
  obtain ⟨after, returns, fails⟩ := call_effect serves holds asserts called
  rw [← live] at after
  refine ⟨after, ⟨result, called, returns, live, fails⟩, fun q member stays spared => ?_⟩
  rw [live] at stays
  obtain ⟨size, bytes⟩ := call_spares serves holds asserts called member stays spared
  rw [size, Mem.read_congr bytes]

def client (P : Platform) (A : Ralc σ) (limit : Nat) (ι : Type v) : Client P A limit ι where
  State := State σ
  Op := Op
  View := RList × List (Nat × Nat × Nat × List UInt8)
  step := step P A limit
  view s := (s.list, s.live.map (cell P s.world.mem))
  world := State.world
  enter s w := { s with world := w }
  Holds ok owner L s := Holds P ok owner s.list s.world L s.live
  Sound := Enumerates P
  Effect := Effect P A
  world_enter _ _ := rfl
  enter_world _ := rfl
  enter_enter _ _ _ := rfl
  rests holds := holds.ok
  kept serves _ holds after same := ⟨holds.carried serves after same,
    congrArg (Prod.mk _) (List.map_congr_left fun _ member => holds.cell_kept serves member same)⟩
  sound serves holds := holds.enumerates serves
  effect serves holds taken := step_effect serves holds taken

end Rlist

namespace Rmap

/-- What is found of every key, and the bytes of every value. -/
def look (P : Platform) (s : State σ) :
    (List UInt8 → Option (Option (Nat × List UInt8))) × List (Entry × List UInt8) :=
  (observe P s, s.entries.map fun x => (x, Mem.read s.world.mem x.cell x.valueSize))

variable {f : List UInt8 → UInt32} {equals : List UInt8 → List UInt8 → Bool} {s s' : State σ}

def Rests (P : Platform) (ok : World σ → Blocks ι → Prop) (owner : ι) (f : List UInt8 → UInt32)
    (equals : List UInt8 → List UInt8 → Bool) (s : State σ) (L : Blocks ι) : Prop :=
  ∃ chains, Holds P ok owner owner f equals s.map s.world L chains ∧
    (Compatible f equals →
      ((members s.map.bucketCount chains).map (Elem.entry P)).Perm s.entries) ∧
    ∀ i iter, s.iters i = some iter → iter.Valid P s.map chains

theorem Rests.kept (rests : Rests P ok owner f equals s L) (after : ok' w' L)
    (same : Set.EqOn s.world.mem w'.mem L.bytes) :
    Rests P ok' owner f equals { s with world := w' } L := by
  obtain ⟨chains, holds, listed, valid⟩ := rests
  exact ⟨chains, { holds with ok := after, table := holds.table.congr holds.housed same }, listed, valid⟩

theorem Rests.values (compatible : Compatible f equals) (rests : Rests P ok owner f equals s L)
    (same : Set.EqOn s.world.mem w'.mem L.bytes) : ∀ x ∈ s.entries, Keeps s.world.mem w'.mem x := by
  obtain ⟨chains, holds, listed, -⟩ := rests
  intro x member
  exact Elem.body_keeps (fun e found => same.mono (holds.housed.body_bytes found)) x
    ((listed compatible).mem_iff.mpr member)

/-- What a lookup finds in the blocks of the map is found in any memory with these bytes. -/
theorem Rests.look_kept (serves : Serves P A owner ok limit) (serves' : Serves P A owner ok' limit)
    (compatible : Compatible f equals) (rests : Rests P ok owner f equals s L) (after : ok' w' L)
    (same : Set.EqOn s.world.mem w'.mem L.bytes) : look P { s with world := w' } = look P s := by
  have before : Represents P s := Inv.represents serves compatible ⟨L, rests⟩
  have behind : Represents P { s with world := w' } :=
    Inv.represents serves' compatible ⟨L, rests.kept after same⟩
  refine Prod.ext (funext fun k => (behind.finds k).trans (before.finds k).symm) ?_
  refine List.map_congr_left fun x member => congrArg (Prod.mk x) ?_
  refine List.map_congr_left fun i low => rests.values compatible same x member i ?_
  exact List.mem_range.mp low

/-- What a call returned is right, and the classes it was not about are as they were. -/
theorem step_answers (serves : Serves P A owner ok limit) (compatible : Compatible f equals)
    (inv : Inv P ok owner owner f equals s) (taken : step P A A limit s op = some s') :
    Inv P ok owner owner f equals s' ∧
      ∃ result, (call P A A s op).map Prod.fst = some result ∧ Answers P s op result s' := by
  rw [step] at taken
  split at taken
  case isFalse => cases taken
  case isTrue asserts =>
    obtain ⟨result, p', w', iters, called, effect⟩ :=
      call_effect serves serves inv op (fun _ => compatible) asserts
    rw [called] at taken
    cases taken
    have before := inv.represents serves compatible
    have after := effect.inv.represents serves compatible
    obtain ⟨_, _, holds, -⟩ := inv
    obtain ⟨_, _, holds', -⟩ := effect.inv
    have same : p'.equals = s.map.equals := holds'.compares.trans holds.compares.symm
    have equiv : Equivalence fun a b => s.map.equals a b = true := by
      rw [holds.compares]
      exact compatible.equivalence
    refine ⟨effect.inv, result, by rw [called]; rfl, effect.returns compatible, fun k apart => ?_,
      effect.keeps compatible⟩
    have others := edit_others equiv op apart
    rw [after.finds, before.finds]
    dsimp only
    rw [same, others]

def client (P : Platform) (A : Ralc σ) (limit : Nat) (ι : Type v) (f : List UInt8 → UInt32)
    (equals : List UInt8 → List UInt8 → Bool) (compatible : Compatible f equals) :
    Ratlib.Client P A limit ι where
  State := State σ
  Op := Op
  View := (List UInt8 → Option (Option (Nat × List UInt8))) × List (Entry × List UInt8)
  step := step P A A limit
  view := look P
  world := State.world
  enter s w := { s with world := w }
  Holds ok owner L s := Rests P ok owner f equals s L
  Sound := Represents P
  Effect s op s' := ∃ result, (call P A A s op).map Prod.fst = some result ∧ Answers P s op result s'
  world_enter _ _ := rfl
  enter_world _ := rfl
  enter_enter _ _ _ := rfl
  rests holds := holds.choose_spec.1.ok
  kept serves serves' holds after same :=
    ⟨holds.kept after same, holds.look_kept serves serves' compatible after same⟩
  sound {_ _ L _} serves holds := Inv.represents serves compatible ⟨L, holds⟩
  effect {_ _ L _ _ _} serves holds taken := step_answers serves compatible ⟨L, holds⟩ taken

end Rmap
end Ratlib
