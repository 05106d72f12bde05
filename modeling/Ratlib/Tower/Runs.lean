import Ratlib.Tower.Chains
import Ratlib.Gen.Correctness

/-! Runs of a chain, of which a client operates the top layer: the calls of that layer
with the objects the client holds. The calls of ralc.h on the top layer are calls of its
own interface, or change nothing. -/
namespace Ratlib.Tower

/-- A chain with what the client of its top layer keeps. -/
def Client : List Layer → Type
  | [] => Gen.State
  | .arena _ :: ls => Arena.State (State ls)
  | .pool _ _ :: ls => Pool.State (State ls)
  | .list :: ls => Rlist.State (State ls)

def Op : List Layer → Type
  | [] => Gen.Op
  | .arena _ :: _ => Arena.Op
  | .pool _ _ :: _ => Pool.Op
  | .list :: _ => Rlist.Op

variable (P : Platform)

def start (buf cap : Nat) (m : Mem) : (ls : List Layer) → Client ls
  | [] => Gen.start buf cap m
  | .arena initChunkCap :: ls => Arena.start initChunkCap ⟨init P buf cap ls, m⟩
  | .pool elemSize initChunkCap :: ls => Pool.start P elemSize initChunkCap ⟨init P buf cap ls, m⟩
  | .list :: ls => Rlist.start ⟨init P buf cap ls, m⟩

def world : (ls : List Layer) → Client ls → World (State ls)
  | [], s => ⟨s.gen, s.mem⟩
  | .arena _ :: _, s => above s.arena s.world
  | .pool _ _ :: _, s => above s.pool s.world
  | .list :: _, s => above s.list s.world

def held : (ls : List Layer) → Client ls → Blocks Unit
  | [], s, q => (s.live q).map fun n => ⟨(), n⟩
  | .arena _ :: _, s, q => (s.regions.find? fun r => r.ptr = q).map fun r => ⟨(), r.size⟩
  | .pool _ _ :: _, s, q => if q ∈ s.live then some ⟨(), s.pool.elemSize⟩ else none
  | .list :: _, s, q =>
    if q ∈ s.live then some ⟨(), Rlist.rlistElemSize P s.world.mem q⟩ else none

def admits : (ls : List Layer) → Client ls → Op ls → Bool
  | [], _, _ => true
  | .arena _ :: ls, s, .push size => arenaAdmits P (chain P ls) (above s.arena s.world) size
  | .arena _ :: _, _, _ => true
  | .pool _ _ :: ls, s, .alloc => slotAdmits P (chain P ls) s.pool s.world
  | .pool _ _ :: _, _, _ => true
  | .list :: ls, s, .insert _ size => insertAdmits P (chain P ls) s.world size
  | .list :: ls, s, .resize obj newSize => resizeAdmits P (chain P ls) s.world obj newSize
  | .list :: _, _, _ => true

def call : (ls : List Layer) → Client ls → Op ls → Option (Client ls)
  | [], s, op => Gen.step P s op
  | .arena _ :: ls, s, op => Arena.step P (chain P ls).ralc P.sizeMax s op
  | .pool _ _ :: ls, s, op => Pool.step P (chain P ls).ralc P.sizeMax s op
  | .list :: ls, s, op => Rlist.step P (chain P ls).ralc P.sizeMax s op

def step (ls : List Layer) (s : Client ls) (op : Op ls) : Option (Client ls) :=
  if admits P ls s op then call P ls s op else none

section Guarded
variable {P} {σ : Type} {C : Checked σ}

theorem rewindLoop_guarded (p : Arena.RalcArena) (w : World σ) (size rounds : Nat) :
    Arena.rewindLoop P C.guarded p w size rounds = Arena.rewindLoop P C.ralc p w size rounds := by
  induction rounds generalizing p w size with
  | zero => rfl
  | succ rounds ih => simp only [Arena.rewindLoop, guarded_free, ih]

theorem arenaClearLoop_guarded (w : World σ) (chunk rounds : Nat) :
    Arena.clearLoop P C.guarded w chunk rounds = Arena.clearLoop P C.ralc w chunk rounds := by
  induction rounds generalizing w chunk with
  | zero => rfl
  | succ rounds ih => simp only [Arena.clearLoop, guarded_free, ih]

theorem poolClearLoop_guarded (w : World σ) (chunk rounds : Nat) :
    Pool.clearLoop P C.guarded w chunk rounds = Pool.clearLoop P C.ralc w chunk rounds := by
  induction rounds generalizing w chunk with
  | zero => rfl
  | succ rounds ih => simp only [Pool.clearLoop, guarded_free, ih]

theorem arenaStep_guarded {s : Arena.State σ} {op : Arena.Op}
    (admits : ∀ size, op = .push size → arenaAdmits P C (above s.arena s.world) size = true) :
    Arena.step P C.guarded P.sizeMax s op = Arena.step P C.ralc P.sizeMax s op := by
  cases op with
  | push size =>
    have same : Arena.ralcArenaPush P C.guarded s.arena s.world size =
        Arena.ralcArenaPush P C.ralc s.arena s.world size := arenaPush_guarded (admits size rfl)
    simp only [Arena.step, same]
  | rewind mark => simp only [Arena.step, Arena.ralcArenaRewind, rewindLoop_guarded]
  | clear => simp only [Arena.step, Arena.ralcArenaClear, arenaClearLoop_guarded]
  | mark | write => rfl

theorem poolStep_guarded {s : Pool.State σ} {op : Pool.Op}
    (admits : op = .alloc → slotAdmits P C s.pool s.world = true) :
    Pool.step P C.guarded P.sizeMax s op = Pool.step P C.ralc P.sizeMax s op := by
  cases op with
  | alloc => simp only [Pool.step, ralcPoolAlloc_guarded (admits rfl)]
  | clear => simp only [Pool.step, Pool.ralcPoolClear, poolClearLoop_guarded]
  | free | write => rfl

theorem listStep_guarded {s : Rlist.State σ} {op : Rlist.Op}
    (inserts : ∀ obj size, op = .insert obj size → insertAdmits P C s.world size = true)
    (resizes : ∀ obj size, op = .resize obj size → resizeAdmits P C s.world obj size = true)
    (taken : Rlist.step P C.ralc P.sizeMax s op = some s') :
    Rlist.step P C.guarded P.sizeMax s op = some s' := by
  obtain ⟨asserts, -⟩ := Rlist.step_cases taken
  have both : op.Asserts P C.guarded P.sizeMax s ∧ Rlist.call P C.guarded s op = Rlist.call P C.ralc s op := by
    cases op with
    | insert obj size => exact ⟨asserts, rlistInsert_guarded (inserts obj size rfl)⟩
    | resize obj newSize =>
      obtain ⟨same, asserts'⟩ := rlistResize_guarded (p := s.list) (resizes obj newSize rfl)
      exact ⟨⟨asserts.1, asserts'⟩, same⟩
    | remove | clear => exact ⟨asserts, rlistRemove_guarded⟩
    | write => exact ⟨asserts, rfl⟩
  rw [Rlist.step, if_pos asserts] at taken
  rw [Rlist.step, if_pos both.1, both.2]
  exact taken

end Guarded

section Invariant
variable {P} {g : Gen.Grain P} {buf cap : Nat} {ls : List Layer} {s s' : Client ls}

/-- The chain below the top layer is well formed, and so is what the client holds. -/
def Inv (g : Gen.Grain P) (buf cap : Nat) : (ls : List Layer) → Client ls → Prop
  | [], s => s.gen.buf = buf ∧ s.gen.cap = cap ∧ ∃ bs, Gen.Tracks g s bs
  | .arena _ :: ls, s => ∃ K cs, Arena.Inv P (ChainOk g buf cap ls) () s K cs
  | .pool _ _ :: ls, s => Pool.Inv P (ChainOk g buf cap ls) () s
  | .list :: ls, s => Rlist.Inv P (ChainOk g buf cap ls) () s

theorem inv_start (region : 0 < buf ∧ buf + cap ≤ P.sizeMax) (asserts : ∀ l ∈ ls, l.InitAsserts P)
    (m : Mem) : Inv g buf cap ls (start P buf cap m ls) := by
  cases ls with
  | nil => exact ⟨rfl, rfl, [], Gen.tracks_start region m⟩
  | cons l ls =>
    have below := chain_init (g := g) region (fun l member => asserts l (List.mem_cons_of_mem _ member)) m
    have top := asserts l List.mem_cons_self
    cases l with
    | arena initChunkCap => exact ⟨_, [], Arena.inv_start below⟩
    | pool elemSize initChunkCap => exact Pool.inv_start top below
    | list => exact Rlist.inv_start below

theorem step_inv {op : Op ls} (inv : Inv g buf cap ls s) (taken : step P ls s op = some s') :
    Inv g buf cap ls s' := by
  rw [step] at taken
  split at taken
  case isFalse => cases taken
  case isTrue admits =>
    cases ls with
    | nil =>
      obtain ⟨sameBuf, sameCap, bs, tracks⟩ := inv
      obtain ⟨bs', tracks', keeps⟩ := Gen.step_keeps tracks taken
      exact ⟨keeps.buf.trans sameBuf, keeps.cap.trans sameCap, bs', tracks'⟩
    | cons l ls =>
      have serves : Serves P (chain P ls).guarded () (ChainOk g buf cap ls) P.sizeMax :=
        (chain_meets ls).serves
      cases l with
      | arena initChunkCap =>
        obtain ⟨K, cs, inv⟩ := inv
        have same : Arena.step P (chain P ls).guarded P.sizeMax s op =
            Arena.step P (chain P ls).ralc P.sizeMax s op := arenaStep_guarded (by
          rintro size rfl
          exact admits)
        obtain ⟨K', cs', inv', -⟩ := Arena.step_effect serves inv (same.trans taken)
        exact ⟨K', cs', inv'⟩
      | pool elemSize initChunkCap =>
        have same : Pool.step P (chain P ls).guarded P.sizeMax s op =
            Pool.step P (chain P ls).ralc P.sizeMax s op := poolStep_guarded (by
          rintro rfl
          exact admits)
        exact (Pool.step_inv serves inv (same.trans taken)).1
      | list =>
        refine Rlist.step_inv serves inv (listStep_guarded ?_ ?_ taken)
        · rintro obj size rfl
          exact admits
        · rintro obj size rfl
          exact admits

theorem run_inv (g : Gen.Grain P) (region : 0 < buf ∧ buf + cap ≤ P.sizeMax)
    (asserts : ∀ l ∈ ls, l.InitAsserts P)
    (ran : run (step P ls) (start P buf cap m ls) ops = some s) : Inv g buf cap ls s :=
  run_invariant (Inv g buf cap ls) (fun _ _ _ => step_inv) (inv_start region asserts m) ran

theorem Inv.chain (inv : Inv g buf cap ls s) : ChainOk g buf cap ls (world ls s) (held P ls s) := by
  cases ls with
  | nil =>
    obtain ⟨sameBuf, sameCap, bs, tracks⟩ := inv
    refine ⟨⟨bs, tracks.layout, sameCap, fun a block found => ?_⟩, sameBuf⟩
    obtain ⟨n, live, rfl⟩ := Option.map_eq_some_iff.mp found
    exact (tracks.objects a n).mp live
  | cons l ls =>
    cases l with
    | arena initChunkCap =>
      obtain ⟨K, cs, inv⟩ := inv
      refine ⟨K, cs, s.regions, ⟨inv.holding, inv.tiles, by simp [arenaState]⟩, fun a block found => ?_⟩
      obtain ⟨r, first, rfl⟩ := Option.map_eq_some_iff.mp found
      exact ⟨r, List.mem_of_find?_eq_some first, by simpa using List.find?_some first, rfl⟩
    | pool elemSize initChunkCap =>
      obtain ⟨K, cs, free, holds⟩ := inv
      refine ⟨K, cs, free, s.live, holds, fun a block found => ?_⟩
      simp only [held] at found
      split at found
      case isTrue live =>
        cases found
        exact ⟨live, rfl⟩
      case isFalse => cases found
    | list =>
      obtain ⟨K, holds⟩ := inv
      refine ⟨K, s.live, holds, fun a block found => ?_⟩
      simp only [held] at found
      split at found
      case isTrue live =>
        cases found
        exact ⟨live, rfl⟩
      case isFalse => cases found

end Invariant

end Ratlib.Tower
