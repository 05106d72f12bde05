import Ratlib.Tower.Model
import Ratlib.Gen.Contract
import Ratlib.Arena.Regions
import Ratlib.Pool.Operations

/-! The contract of ralc.h for an allocator whose requests may wrap: it is promised for
those that do not, and the allocator that refuses the others meets it outright. So what
is proved about arenas, pools and lists over any parent holds over any chain. -/
namespace Ratlib.Tower

/-- `C` meets the contract for the requests it admits, and writes no size when it refuses
a realloc. -/
structure Meets {σ : Type} (P : Platform) (C : Checked σ) (ok : World σ → Blocks Unit → Prop) :
    Prop where
  bounds : ok w L → L a = some block → 0 < a ∧ a + block.size ≤ P.sizeMax
  separate : ok w L → L.Separate
  client : ok w L → Set.EqOn w.mem m' L.bytesᶜ → ok { w with mem := m' } L
  alloc : ok w L → C.admitsAlloc w size = true →
    Granted ok () w L size (ralcAlloc C.ralc w size)
  realloc_null : ok w L → C.admitsRealloc w 0 size = true →
    Granted ok () w L size (ralcRealloc C.ralc w 0 size)
  realloc : ok w L → L ptr = some ⟨(), oldSize⟩ → C.admitsRealloc w ptr newSize = true →
    Regranted ok () w L ptr oldSize newSize (ralcRealloc C.ralc w ptr newSize)
  free : ok w L → L ptr = some ⟨(), size⟩ →
    Set.EqOn w.mem (ralcFree C.ralc w ptr).mem (L.release ptr).bytes ∧
      ok (ralcFree C.ralc w ptr) (L.release ptr)
  refuses (w : World σ) (ptr newSize : Nat) : (ralcRealloc C.ralc w ptr newSize).1.ptr = 0 →
    (ralcRealloc C.ralc w ptr newSize).1 = .null

/-- No call that `C` admits changes `I`, nor does what a client writes. -/
structure Preserves {σ : Type} (C : Checked σ) (ok : World σ → Blocks Unit → Prop) (I : World σ → Prop) : Prop where
  client : I w → ok w L → Set.EqOn w.mem m' L.bytesᶜ → I { w with mem := m' }
  alloc : I w → ok w L → C.admitsAlloc w size = true → I (ralcAlloc C.ralc w size).2
  realloc_null : I w → ok w L → C.admitsRealloc w 0 size = true → I (ralcRealloc C.ralc w 0 size).2
  realloc : I w → ok w L → L ptr = some ⟨(), oldSize⟩ → C.admitsRealloc w ptr newSize = true →
    I (ralcRealloc C.ralc w ptr newSize).2
  free : I w → ok w L → L ptr = some ⟨(), size⟩ → I (ralcFree C.ralc w ptr)

variable {P : Platform} {σ : Type} {C : Checked σ} {ok : World σ → Blocks Unit → Prop}
  {w : World σ} {L : Blocks Unit}

theorem guarded_alloc (admits : C.admitsAlloc w size = true) :
    ralcAlloc C.guarded w size = ralcAlloc C.ralc w size := if_pos admits

theorem guarded_realloc (admits : C.admitsRealloc w ptr newSize = true) :
    ralcRealloc C.guarded w ptr newSize = ralcRealloc C.ralc w ptr newSize := if_pos admits

theorem guarded_free (w : World σ) (ptr : Nat) : ralcFree C.guarded w ptr = ralcFree C.ralc w ptr := rfl

theorem granted_null (before : ok w L) : Granted ok () w L size (.null, w) :=
  ⟨fun _ _ => rfl, (if_pos rfl).mpr before⟩

theorem regranted_null (before : ok w L) : Regranted ok () w L ptr oldSize newSize (.null, w) :=
  ⟨fun _ _ => rfl, (if_pos rfl).mpr ⟨fun _ _ => rfl, before⟩⟩

theorem Meets.serves (meets : Meets P C ok) : Serves P C.guarded () ok P.sizeMax where
  bounds := meets.bounds
  separate := meets.separate
  client := meets.client
  alloc {w _ size} before _ := by
    by_cases admits : C.admitsAlloc w size = true
    · rw [guarded_alloc admits]
      exact meets.alloc before admits
    · rw [show ralcAlloc C.guarded w size = (.null, w) from if_neg admits]
      exact granted_null before
  realloc_null {w _ size} before _ := by
    by_cases admits : C.admitsRealloc w 0 size = true
    · rw [guarded_realloc admits]
      exact meets.realloc_null before admits
    · rw [show ralcRealloc C.guarded w 0 size = (.null, w) from if_neg admits]
      exact granted_null before
  realloc {w _ ptr _ newSize} before held _ := by
    by_cases admits : C.admitsRealloc w ptr newSize = true
    · rw [guarded_realloc admits]
      exact meets.realloc before held admits
    · rw [show ralcRealloc C.guarded w ptr newSize = (.null, w) from if_neg admits]
      exact regranted_null before
  free := meets.free

theorem Meets.and {I : World σ → Prop} (meets : Meets P C ok) (preserves : Preserves C ok I) :
    Meets P C fun w L => ok w L ∧ I w where
  bounds both held := meets.bounds both.1 held
  separate both := meets.separate both.1
  client both same := ⟨meets.client both.1 same, preserves.client both.2 both.1 same⟩
  alloc both admits := by
    have after := preserves.alloc both.2 both.1 admits
    exact (meets.alloc both.1 admits).and after fun _ _ => after
  realloc_null both admits := by
    have after := preserves.realloc_null both.2 both.1 admits
    exact (meets.realloc_null both.1 admits).and after fun _ _ => after
  realloc both held admits := by
    have after := preserves.realloc both.2 both.1 held admits
    exact (meets.realloc both.1 held admits).and after fun _ _ => after
  free both held := by
    obtain ⟨same, kept⟩ := meets.free both.1 held
    exact ⟨same, kept, preserves.free both.2 both.1 held⟩
  refuses := meets.refuses

section General

/-- `ralcGen` keeps to its buffer. -/
theorem ralcGeneral_meets (g : Gen.Grain P) (cap : Nat) : Meets P (ralcGeneral P) (Gen.GenOk g cap) where
  bounds {w L a block} := by
    rintro ⟨bs, holds⟩ held
    exact holds.bounds held
  separate {w L} := by
    rintro ⟨bs, holds⟩
    exact holds.separate
  client {w L m'} := by
    rintro ⟨bs, holds⟩ same
    exact ⟨bs, holds.client same⟩
  alloc {w L size} := by
    rintro ⟨bs, holds⟩ admits
    exact holds.granted (Gen.ralcGenAlloc_cases holds.layout (of_decide_eq_true admits))
  realloc_null {w L size} := by
    rintro ⟨bs, holds⟩ admits
    exact holds.granted (Gen.ralcGenAlloc_cases holds.layout (of_decide_eq_true admits).1)
  realloc {w L ptr oldSize newSize} := by
    rintro ⟨bs, holds⟩ held admits
    exact holds.regranted held (Gen.ralcGenRealloc_cases holds.layout (holds.objects ptr _ held)
      (of_decide_eq_true admits))
  free {w L ptr size} := by
    rintro ⟨bs, holds⟩ held
    obtain ⟨bs', frame, -⟩ := Gen.ralcGenFree_frame holds.layout (holds.objects ptr _ held)
    exact ⟨holds.bytes frame Gen.kept_release, bs', holds.change frame Gen.kept_release⟩
  refuses w ptr newSize null := congrArg Prod.fst (Gen.ralcGenRealloc_null null)

end General

end Ratlib.Tower
