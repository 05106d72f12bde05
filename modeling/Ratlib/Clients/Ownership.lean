import Ratlib.Alloc.Balance
import Ratlib.Arena.Correctness
import Ratlib.Dyn.Correctness
import Ratlib.Pool.Correctness
import Ratlib.Rlist.Correctness

/-! The components own their memory exactly: by the ledger of their calls no block is freed
twice, none is lost, and after a clear none is left. That the blocks a component points to
are its own is what holds it together; that there are no others is a matter of counting. -/
namespace Ratlib

variable {P : Platform} {σ : Type u} {ι : Type v} {A : Ralc σ} {limit : Nat} {owner : ι}
  {ok : World σ → Blocks ι → Prop} {L : Blocks ι}

theorem freeAll_balance (w : World (σ × List (Unit × Call))) (blocks : List Nat) :
    balance () (freeAll (watched A ()) w blocks).state.2 = balance () w.state.2 - blocks.length := by
  induction blocks generalizing w with
  | nil => exact (Int.sub_zero _).symm
  | cons block blocks ih =>
    rw [freeAll_cons, ih, balance_free, List.length_cons]
    omega

namespace Dyn

def RDyn.blocks (p : RDyn) : List Nat := if p.buf = 0 then [] else [p.buf]

/-- A call changes the number of blocks as it does that of the buffers. -/
def Settles (p : RDyn) (w : World (σ × List (Unit × Ratlib.Call))) (p' : RDyn)
    (w' : World (σ × List (Unit × Ratlib.Call))) : Prop :=
  balance () w'.state.2 - p'.blocks.length = balance () w.state.2 - p.blocks.length

variable {p p' : RDyn} {w w' : World (σ × List (Unit × Ratlib.Call))}

theorem length_blocks (p : RDyn) : (p.blocks.length : Int) = if p.buf = 0 then 0 else 1 := by
  rw [RDyn.blocks]
  split <;> rfl

theorem settles_same (same : p'.buf = p.buf) (state : w'.state = w.state) : Settles p w p' w' := by
  rw [Settles, length_blocks, length_blocks, same, state]

theorem Settles.trans {p₁ : RDyn} {w₁ : World (σ × List (Unit × Ratlib.Call))} (first : Settles p w p₁ w₁)
    (second : Settles p₁ w₁ p' w') : Settles p w p' w' := Eq.trans second first

/-- `reallocBuf` leaves one buffer where it left one or none, or changes nothing. -/
theorem reallocBuf_settles (result : reallocBuf P (watched A ()) p w cap copyCount = (out, w'))
    (buffer : p'.buf = (out.map Prod.fst).getD p.buf) : Settles p w p' w' := by
  rw [Settles, length_blocks, length_blocks, buffer]
  rw [reallocBuf] at result
  generalize first : ralcRealloc (watched A ()) w p.buf (P.mul cap p.elemSize) = answer at result
  obtain ⟨reply, w₁⟩ := answer
  have resized := balance_realloc first
  dsimp only at result
  split at result
  case isTrue given =>
    cases result
    rw [resized]
    by_cases none : p.buf = 0
    · simp [none, given]
    · simp [none, given]
  case isFalse refused =>
    rw [if_neg fun both => refused both.2, Int.add_zero] at resized
    generalize second : ralcAlloc (watched A ()) w₁ (P.mul cap p.elemSize) = answer at result
    obtain ⟨reply', w₂⟩ := answer
    have allotted := balance_alloc second
    dsimp only at result
    split at result
    case isTrue null =>
      cases result
      rw [allotted, if_pos null, Int.add_zero, resized]
      rfl
    case isFalse given =>
      rw [if_neg given] at allotted
      cases result
      by_cases none : p.buf = 0
      · simp only [none, given, ne_eq, not_true, if_true, if_false, Option.map_some, Option.getD_some]
        omega
      · simp only [none, given, ne_eq, not_false_eq_true, if_true, if_false, Option.map_some,
          Option.getD_some, balance_free]
        omega

theorem grow_settles (result : grow P (watched A ()) p w growCount = (grown, p', w')) :
    Settles p w p' w' := by
  rw [grow] at result
  split at result
  case isTrue =>
    cases result
    exact settles_same rfl rfl
  case isFalse =>
    split at result
    case h_1 buf n w₁ first =>
      cases result
      exact reallocBuf_settles first rfl
    case h_2 w₁ first =>
      have kept : Settles p w p w₁ := reallocBuf_settles first rfl
      split at result
      case h_1 buf n w₂ second =>
        cases result
        exact kept.trans (reallocBuf_settles second rfl)
      case h_2 w₂ second =>
        cases result
        exact kept.trans (reallocBuf_settles second rfl)

theorem clear_settles (result : rdynClear (watched A ()) p w = (p', w')) : Settles p w p' w' := by
  cases result
  rw [Settles, length_blocks, length_blocks, if_pos rfl]
  by_cases none : p.buf = 0
  · rw [if_neg (not_not.mpr none), if_pos none]
  · rw [if_pos none, if_neg none, balance_free]
    omega

theorem shrink_settles (result : shrink P (watched A ()) p w shrinkCount = (p', w')) :
    Settles p w p' w' := by
  rw [shrink] at result
  split at result
  case isTrue =>
    cases result
    exact settles_same rfl rfl
  case isFalse =>
    split at result
    case isTrue => exact clear_settles result
    case isFalse =>
      dsimp only at result
      split at result
      case isFalse =>
        cases result
        exact settles_same rfl rfl
      case isTrue =>
        split at result
        case h_1 buf n w₁ moved =>
          cases result
          exact reallocBuf_settles moved rfl
        case h_2 w₁ failed =>
          cases result
          exact reallocBuf_settles failed rfl

theorem insert_settles (result : rdynInsert P (watched A ()) p w index count = (b, p', w')) :
    Settles p w p' w' := by
  rw [rdynInsert] at result
  split at result
  case h_1 p₁ w₁ failed =>
    cases result
    exact grow_settles failed
  case h_2 p₁ w₁ grown =>
    cases result
    exact (grow_settles grown).trans (settles_same rfl rfl)

theorem remove_settles (result : rdynRemove P (watched A ()) p w index count = (b, p', w')) :
    Settles p w p' w' := by
  rw [rdynRemove] at result
  generalize Arr.rarrRemove P w.mem p.buf p.elemSize p.count index count = moved at result
  dsimp only at result
  generalize shrunk : shrink P (watched A ()) p { w with mem := moved.2 } count = answer at result
  obtain ⟨p₁, w₁⟩ := answer
  have settled := shrink_settles shrunk
  cases result
  exact settled

theorem call_settles (s : State (σ × List (Unit × Ratlib.Call))) (op : Op) :
    let s' := (call P (watched A ()) s op).2
    Settles s.dyn s.world s'.dyn s'.world := by
  cases op with
  | insert index count => exact insert_settles rfl
  | remove index count => exact remove_settles rfl
  | resize index oldCount newCount =>
    simp only [call, rdynResize]
    split
    · exact insert_settles rfl
    · exact remove_settles rfl
  | clear => exact clear_settles rfl
  | allowShrink allow => exact settles_same rfl rfl
  | write index bytes => exact settles_same rfl rfl

/-- The buffer is the array's own block, and its only one. -/
theorem Holds.ownsJust {L : Blocks (ι ⊕ Unit)}
    (holds : Holds (Audited ok owner) (.inr ()) p w L) (count : balance () w.state.2 = p.blocks.length) :
    OwnsJust () w.state.2 p.blocks := by
  refine holds.ok.2.ownsJust ?_ (fun a member => ?_) count
  · rw [RDyn.blocks]
    split
    · exact List.nodup_nil
    · exact List.nodup_singleton _
  · rw [RDyn.blocks] at member
    split at member
    case isTrue => cases member
    case isFalse some =>
      obtain ⟨size, held, -⟩ := holds.block some
      rw [List.mem_singleton.mp member]
      exact ⟨size, held⟩

def Balanced (ok : World σ → Blocks ι → Prop) (owner : ι) (elemSize : Nat)
    (s : State (σ × List (Unit × Ratlib.Call))) : Prop :=
  Inv (Audited ok owner) (.inr ()) elemSize s ∧ balance () s.world.state.2 = s.dyn.blocks.length

theorem balanced_step (serves : Serves P (watched A ()) (.inr ()) (Audited ok owner) limit)
    (balanced : Balanced ok owner elemSize s) (taken : step P (watched A ()) limit s op = some s') :
    Balanced ok owner elemSize s' := by
  obtain ⟨inv, count⟩ := balanced
  obtain ⟨asserts, rfl⟩ := step_call taken
  have settled := call_settles (P := P) (A := A) s op
  rw [Settles] at settled
  exact ⟨(call_effect serves inv asserts).1, by omega⟩

theorem Balanced.clear (serves : Serves P (watched A ()) (.inr ()) (Audited ok owner) limit)
    (balanced : Balanced ok owner elemSize s) (taken : step P (watched A ()) limit s .clear = some s') :
    liveOf () s'.world.state.2 = some [] := by
  obtain ⟨⟨-, L', holds⟩, count⟩ := balanced_step serves balanced taken
  obtain ⟨-, rfl⟩ := step_call taken
  exact holds.ok.2.none count

end Dyn

namespace Rlist

variable {p p' : RList} {w w' : World (σ × List (Unit × Call))}

theorem insert_balance (result : rlistInsert P (watched A ()) p w obj size = (b, p', w')) :
    balance () w'.state.2 = balance () w.state.2 + if b = 0 then 0 else 1 := by
  rw [rlistInsert] at result
  generalize attempt : ralcAlloc (watched A ()) w (rlistElemAllocSize P size) = answer at result
  obtain ⟨block, w₁⟩ := answer
  have allotted := balance_alloc attempt
  dsimp only at result
  split at result
  case isTrue null =>
    cases result
    rw [allotted, if_pos null, if_pos rfl]
  case isFalse given =>
    cases result
    have placed : data P (objElem P (blockObj P block.ptr)) ≠ 0 := by
      have := P.sizeT_ge
      simp only [data, sizeofElem]
      omega
    rw [allotted, if_neg given, if_neg placed]

theorem relink_state (p : RList) (w : World σ) (newBlock newSize : Nat) :
    (relink P p w newBlock newSize).2.2.state = w.state := rfl

theorem resize_balance (above : headerSize P < obj)
    (result : rlistResize P (watched A ()) p w obj newSize = (b, p', w')) :
    balance () w'.state.2 = balance () w.state.2 := by
  have nonnull : objBlock P obj ≠ 0 := by
    rw [objBlock]
    omega
  rw [rlistResize] at result
  generalize first : ralcRealloc (watched A ()) w (objBlock P obj) (rlistElemAllocSize P newSize) = answer
    at result
  obtain ⟨reply, w₁⟩ := answer
  have resized := balance_realloc first
  rw [if_neg fun both => nonnull both.1, Int.add_zero] at resized
  dsimp only at result
  split at result
  case isTrue =>
    have state := relink_state (P := P) p w₁ reply.ptr (reply.actual newSize)
    rw [result] at state
    rw [state, resized]
  case isFalse =>
    generalize second : ralcAlloc (watched A ()) w₁ (rlistElemAllocSize P (reply.actual newSize)) = answer
      at result
    obtain ⟨reply', w₂⟩ := answer
    have allotted := balance_alloc second
    dsimp only at result
    split at result
    case isTrue null =>
      cases result
      rw [allotted, if_pos null, Int.add_zero, resized]
    case isFalse given =>
      have state := congrArg (fun answer => answer.2.2.state) result
      simp only [relink_state] at state
      rw [← state, balance_free]
      simp only
      rw [allotted, if_neg given, resized]
      omega

theorem freeRun_balance (w : World (σ × List (Unit × Call))) (e count : Nat) :
    balance () (freeRun P (watched A ()) w e count).2.state.2 = balance () w.state.2 - count := by
  induction count generalizing w e with
  | zero => simp [freeRun]
  | succ count ih =>
    rw [freeRun, ih, balance_free]
    omega

theorem remove_balance (result : rlistRemove P (watched A ()) p w obj count = (b, p', w')) :
    balance () w'.state.2 = balance () w.state.2 - count := by
  rw [rlistRemove] at result
  split at result
  case isTrue none =>
    cases result
    rw [none]
    exact (Int.sub_zero _).symm
  case isFalse =>
    have freed := freeRun_balance (P := P) (A := A) w (objElem P obj) count
    cases result
    exact freed

variable {s s' : State (σ × List (Unit × Call))}

theorem call_balance {L : Blocks (ι ⊕ Unit)}
    (serves : Serves P (watched A ()) (.inr ()) (Audited ok owner) limit)
    (holds : Holds P (Audited ok owner) (.inr ()) s.list s.world L s.live)
    (asserts : op.Asserts P (watched A ()) limit s)
    (called : call P (watched A ()) s op = (result, p', w')) :
    balance () w'.state.2 - (op.edit s.live result).length =
      balance () s.world.state.2 - s.live.length := by
  cases op with
  | insert obj size =>
    rw [insert_balance called]
    have whole := congrArg List.length (upTo_onFrom s.live obj)
    simp only [Op.edit, List.length_append] at whole ⊢
    split
    · omega
    · simp only [List.length_append, List.length_cons]
      omega
  | resize obj newSize =>
    rw [resize_balance (holds.above serves asserts.1) called]
    simp only [Op.edit]
    split
    · rfl
    · rw [List.length_map]
  | remove obj count =>
    rw [remove_balance called]
    have inside := asserts.2.2
    have whole := congrArg List.length (upTo_onFrom s.live obj)
    simp only [Op.edit, List.length_append, List.length_drop] at whole ⊢
    omega
  | clear =>
    rw [remove_balance called, holds.count]
    simp [Op.edit]
  | write obj i byte =>
    cases called
    rfl

/-- The blocks of the live elements are the list's own, and its only ones. -/
theorem Holds.ownsJust {L : Blocks (ι ⊕ Unit)}
    (serves : Serves P (watched A ()) (.inr ()) (Audited ok owner) limit)
    (holds : Holds P (Audited ok owner) (.inr ()) p w L live) (count : balance () w.state.2 = live.length) :
    OwnsJust () w.state.2 (live.map (objBlock P)) := by
  refine holds.ok.2.ownsJust ?_ ?_ (by rwa [List.length_map])
  · refine (List.nodup_map_iff_inj_on holds.nodup).mpr fun q q_mem r r_mem same => ?_
    by_contra different
    exact objBlock_ne (holds.above serves q_mem) (holds.above serves r_mem) different same
  · intro a listed
    obtain ⟨q, member, rfl⟩ := List.mem_map.mp listed
    exact ⟨_, holds.held q member⟩

def Balanced (P : Platform) (ok : World σ → Blocks ι → Prop) (owner : ι)
    (s : State (σ × List (Unit × Call))) : Prop :=
  Inv P (Audited ok owner) (.inr ()) s ∧ balance () s.world.state.2 = s.live.length

theorem balanced_step (serves : Serves P (watched A ()) (.inr ()) (Audited ok owner) limit)
    (balanced : Balanced P ok owner s) (taken : step P (watched A ()) limit s op = some s') :
    Balanced P ok owner s' := by
  obtain ⟨⟨L', holds⟩, count⟩ := balanced
  obtain ⟨asserts, result, called, live⟩ := step_cases taken
  have drift := call_balance serves holds asserts called
  refine ⟨step_inv serves ⟨L', holds⟩ taken, ?_⟩
  rw [live]
  omega

theorem Balanced.clear (serves : Serves P (watched A ()) (.inr ()) (Audited ok owner) limit)
    (balanced : Balanced P ok owner s) (taken : step P (watched A ()) limit s .clear = some s') :
    liveOf () s'.world.state.2 = some [] := by
  obtain ⟨⟨L', holds⟩, count⟩ := balanced_step serves balanced taken
  obtain ⟨-, _, -, empty⟩ := step_cases taken
  rw [empty] at count
  exact holds.ok.2.none count

end Rlist

namespace Arena

variable {s s' : State (σ × List (Unit × Call))} {w w' : World (σ × List (Unit × Call))}

theorem length_popped (m : Nat) (cs : List Chunk) : (popped m cs).length + (cut m cs).length = cs.length := by
  induction cs with
  | nil => rfl
  | cons c cs ih =>
    rw [popped, cut]
    split
    · rw [List.length_nil, Nat.zero_add, List.length_cons, List.length_cons]
    · rw [List.length_cons, List.length_cons]
      omega

/-- A call changes the number of blocks as it does that of the chunks. -/
theorem Effect.balance {op : Op} {cs cs' : List Chunk} (effect : Effect (watched A ()) w op cs w' cs') :
    balance () w'.state.2 - cs'.length = balance () w.state.2 - cs.length := by
  cases effect with
  | grow state => rw [state, List.length_cons, List.length_cons]
  | failed request null state => rw [state, balance_asked, if_pos null, Int.add_zero]
  | fresh request c placed some state =>
    rw [state, balance_asked, placed, if_neg some, List.length_cons]
    omega
  | mark => rfl
  | rewind position within state =>
    have parts := length_popped position cs
    rw [state, freeAll_balance]
    omega
  | clear state =>
    rw [state, freeAll_balance, List.length_map, List.length_nil]
    omega
  | write state => rw [state]

def Balanced (P : Platform) (ok : World σ → Blocks ι → Prop) (owner : ι)
    (s : State (σ × List (Unit × Call))) : Prop :=
  ∃ L cs, Inv P (Audited ok owner) (.inr ()) s L cs ∧ balance () s.world.state.2 = cs.length

theorem balanced_step (serves : Serves P (watched A ()) (.inr ()) (Audited ok owner) limit)
    (balanced : Balanced P ok owner s) (taken : step P (watched A ()) limit s op = some s') :
    Balanced P ok owner s' := by
  obtain ⟨L', cs, inv, count⟩ := balanced
  obtain ⟨L'', cs', inv', effect, -⟩ := step_effect serves inv taken
  have drift := effect.balance
  exact ⟨L'', cs', inv', by omega⟩

theorem Balanced.clear (serves : Serves P (watched A ()) (.inr ()) (Audited ok owner) limit)
    (balanced : Balanced P ok owner s) (taken : step P (watched A ()) limit s .clear = some s') :
    liveOf () s'.world.state.2 = some [] := by
  obtain ⟨L', cs, inv, count⟩ := balanced
  obtain ⟨L'', cs', inv', effect, -⟩ := step_effect serves inv taken
  have drift := effect.balance
  cases effect
  refine inv'.holding.holds.ok.2.none ?_
  rw [List.length_nil] at drift
  omega

end Arena

namespace Pool

variable {s s' : State (σ × List (Unit × Call))} {p p' : RalcPool} {w w' : World (σ × List (Unit × Call))}

def Balanced (P : Platform) (ok : World σ → Blocks ι → Prop) (owner : ι) (p : RalcPool)
    (w : World (σ × List (Unit × Call))) (live : List Nat) : Prop :=
  ∃ L cs free, Holds P (Audited ok owner) (.inr ()) p w L cs free live ∧
    balance () w.state.2 = cs.length

theorem alloc_balanced (serves : Serves P (watched A ()) (.inr ()) (Audited ok owner) limit)
    (balanced : Balanced P ok owner p w live) (asserts : AllocAsserts P limit p)
    (result : ralcPoolAlloc P (watched A ()) p w = (slot, p', w')) :
    Balanced P ok owner p' w' (if slot = 0 then live else slot :: live) := by
  obtain ⟨L', cs, free, holds, count⟩ := balanced
  cases ralcPoolAlloc_allotment serves holds asserts result with
  | refused empty grew same holds₁ =>
    obtain ⟨-, null, world⟩ := grow_failed grew
    refine ⟨L', cs, free, holds₁, ?_⟩
    rw [world, balance_asked, if_pos null, Int.add_zero, count]
  | grown empty nonnull new same size cap extended holds₁ =>
    rw [if_neg nonnull]
    refine ⟨_, _, _, holds₁, ?_⟩
    rw [extended.state, balance_asked, if_neg extended.granted, count, List.length_cons]
    omega
  | taken given nonnull new size cap holds₁ =>
    rw [if_neg nonnull]
    exact ⟨L', cs, _, holds₁, count⟩

theorem balanced_step (serves : Serves P (watched A ()) (.inr ()) (Audited ok owner) limit)
    (balanced : Balanced P ok owner s.pool s.world s.live)
    (taken : step P (watched A ()) limit s op = some s') :
    Balanced P ok owner s'.pool s'.world s'.live := by
  cases op with
  | alloc =>
    simp only [step] at taken
    split at taken
    case isFalse => cases taken
    case isTrue asserts =>
      cases taken
      exact alloc_balanced serves balanced asserts rfl
  | free ptr =>
    obtain ⟨L', cs, free, holds, count⟩ := balanced
    simp only [step] at taken
    split at taken
    case isFalse => cases taken
    case isTrue member =>
      cases taken
      exact ⟨L', cs, _, (ralcPoolFree_cases serves holds member rfl).1, count⟩
  | clear =>
    obtain ⟨L', cs, free, holds, count⟩ := balanced
    obtain ⟨cleared, kept⟩ := ralcPoolClear_spec serves holds
    rw [step, cleared] at taken
    cases taken
    refine ⟨_, [], [], kept, ?_⟩
    rw [freeAll_balance, List.length_map, count]
    exact Int.sub_self _
  | write ptr i byte =>
    obtain ⟨L', cs, free, holds, count⟩ := balanced
    simp only [step] at taken
    split at taken
    case isFalse => cases taken
    case isTrue inside =>
      cases taken
      refine ⟨L', cs, free, holds.client serves fun x away => Mem.write_out ?_, count⟩
      have := away ptr inside.1
      rw [List.length_singleton]
      omega

theorem Balanced.clear (serves : Serves P (watched A ()) (.inr ()) (Audited ok owner) limit)
    (balanced : Balanced P ok owner s.pool s.world s.live)
    (taken : step P (watched A ()) limit s .clear = some s') :
    liveOf () s'.world.state.2 = some [] := by
  obtain ⟨L', cs, free, holds, count⟩ := balanced
  obtain ⟨cleared, kept⟩ := ralcPoolClear_spec serves holds
  rw [step, cleared] at taken
  cases taken
  refine kept.ok.2.none ?_
  rw [freeAll_balance, List.length_map, count]
  exact Int.sub_self _

end Pool

end Ratlib
