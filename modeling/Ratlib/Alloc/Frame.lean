import Ratlib.Alloc.Interface
import Ratlib.Library.Shares

/-! The frame rule of the allocator contract: an allocator that meets it for all blocks
meets it for those of one client beside blocks that others hold, and in doing so it keeps
the blocks of the others and their bytes. So whatever is proved about a client over any
allocator also says that the client leaves the others alone. -/
namespace Ratlib

variable {P : Platform} {σ : Type u} {ι : Type v} {A : Ralc σ} {owner : ι}
  {ok : World σ → Blocks ι → Prop} {w w' : World σ} {L F : Blocks ι} {m : Mem}

/-- `L` are the blocks of one client, and the others still hold `F` with the bytes of `m`. -/
structure Framed (ok : World σ → Blocks ι → Prop) (owner : ι) (F : Blocks ι) (m : Mem) (w : World σ)
    (L : Blocks ι) : Prop where
  ok : ok w (L.union F)
  owned : Blocks.Owned owner L
  apart : L.Apart F
  same : Set.EqOn m w.mem F.bytes

theorem Framed.kept (framed : Framed ok owner F m w L) (after : ok w' (L.union F))
    (kept : Set.EqOn w.mem w'.mem F.bytes) : Framed ok owner F m w' L where
  ok := after
  owned := framed.owned
  apart := framed.apart
  same := framed.same.trans kept

theorem Framed.granted (framed : Framed ok owner F m w L)
    (granted : Granted ok owner w (L.union F) size result) :
    Granted (Framed ok owner F m) owner w L size result := by
  obtain ⟨same, outcome⟩ := granted
  obtain ⟨own, others⟩ := framed.apart.eqOn same
  refine ⟨own, ?_⟩
  split at outcome
  case isTrue null => exact (if_pos null).mpr (framed.kept outcome others)
  case isFalse given =>
    obtain ⟨actual, out, large, vacant, after⟩ := outcome
    obtain ⟨free, foreign⟩ := Blocks.union_eq_none.mp vacant
    rw [← Blocks.union_grant] at after
    exact (if_neg given).mpr ⟨actual, out, large, free, after, framed.owned.grant,
      framed.apart.grant foreign, framed.same.trans others⟩

theorem Framed.regranted (framed : Framed ok owner F m w L) (held : L ptr = some ⟨owner, oldSize⟩)
    (regranted : Regranted ok owner w (L.union F) ptr oldSize newSize result) :
    Regranted (Framed ok owner F m) owner w L ptr oldSize newSize result := by
  obtain ⟨same, outcome⟩ := regranted
  rw [← Blocks.union_release (framed.apart ptr _ held)] at same outcome
  obtain ⟨own, others⟩ := framed.apart.release.eqOn same
  refine ⟨own, ?_⟩
  split at outcome
  case isTrue null =>
    obtain ⟨same, after⟩ := outcome
    exact (if_pos null).mpr ⟨(framed.apart.eqOn same).1, framed.kept after others⟩
  case isFalse given =>
    obtain ⟨actual, out, large, vacant, after, bytes⟩ := outcome
    obtain ⟨free, foreign⟩ := Blocks.union_eq_none.mp vacant
    rw [← Blocks.union_grant] at after
    exact (if_neg given).mpr ⟨actual, out, large, free, ⟨after, framed.owned.release.grant,
      framed.apart.release.grant foreign, framed.same.trans others⟩, bytes⟩

theorem Serves.frame (serves : Serves P A owner ok limit) (F : Blocks ι) (m : Mem) :
    Serves P A owner (Framed ok owner F m) limit where
  bounds framed held := serves.bounds framed.ok (Blocks.union_left held)
  separate framed := (serves.separate framed.ok).left
  client {w L m'} framed same := by
    have foreign := (serves.separate framed.ok).foreign framed.apart
    have outside : Set.EqOn w.mem m' (L.union F).bytesᶜ := by
      rw [framed.apart.bytes_union]
      exact same.mono (Set.compl_subset_compl.mpr Set.subset_union_left)
    exact framed.kept (serves.client framed.ok outside) (same.mono foreign)
  alloc framed fits := framed.granted (serves.alloc framed.ok fits)
  realloc_null framed fits := framed.granted (serves.realloc_null framed.ok fits)
  realloc framed held fits :=
    framed.regranted held (serves.realloc framed.ok (Blocks.union_left held) fits)
  free {w L ptr size} framed held := by
    obtain ⟨same, after⟩ := serves.free framed.ok (Blocks.union_left held)
    rw [← Blocks.union_release (framed.apart ptr _ held)] at same after
    obtain ⟨own, others⟩ := framed.apart.release.eqOn same
    exact ⟨own, after, framed.owned.release, framed.apart.release, framed.same.trans others⟩

end Ratlib
