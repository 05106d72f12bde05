import Ratlib.Arena.Operations

/-! The objects a client holds in an arena, the latest first, and how they fill the
used bytes of the chunks. -/
namespace Ratlib.Arena

/-- What a successful push returned, and the size of the arena before it. -/
structure Region where
  start : Nat
  ptr : Nat
  size : Nat

/-- Regions end to end over the `size` used bytes of a chunk whose data begins at
`origin`, with `base` bytes in the chunks below. -/
def Tile (unit base origin : Nat) : Nat → List Region → Prop
  | size, [] => size = 0
  | size, r :: rs => base ≤ r.start ∧ r.start + r.size = base + size ∧ 0 < r.size ∧
      unit ∣ r.size ∧ r.ptr = origin + (r.start - base) ∧ Tile unit base origin (r.start - base) rs

/-- Every chunk is filled by its own regions. -/
def Tiles (P : Platform) : List Chunk → List Region → Prop
  | [], rs => rs = []
  | c :: cs, rs => ∃ top rest, rs = top ++ rest ∧
      Tile P.alignment (total cs) (c.block + headerSize P) c.size top ∧ Tiles P cs rest

/-- Position `m` is the end of the arena or the start of a region. -/
def Boundary (size : Nat) (rs : List Region) (m : Nat) : Prop := m = size ∨ ∃ r ∈ rs, r.start = m

variable {P : Platform} {c : Chunk} {cs : List Chunk} {r : Region} {rs top rest : List Region}

theorem tile_inside (tile : Tile unit base origin size rs) (member : r ∈ rs) :
    base ≤ r.start ∧ r.start + r.size ≤ base + size ∧ 0 < r.size ∧
      r.ptr = origin + (r.start - base) := by
  induction rs generalizing size with
  | nil => cases member
  | cons s rs ih =>
    obtain ⟨low, high, positive, -, here, below⟩ := tile
    rcases List.mem_cons.mp member with rfl | member
    · exact ⟨low, high.le, positive, here⟩
    · obtain ⟨low', high', rest⟩ := ih below member
      exact ⟨low', by omega, rest⟩

theorem tile_aligned (tile : Tile unit base origin size rs) :
    unit ∣ size ∧ ∀ r ∈ rs, unit ∣ r.start - base := by
  induction rs generalizing size with
  | nil =>
    rw [show size = 0 from tile]
    exact ⟨Nat.dvd_zero unit, by simp⟩
  | cons s rs ih =>
    obtain ⟨low, high, -, divides, -, below⟩ := tile
    obtain ⟨start, others⟩ := ih below
    have whole : size = (s.start - base) + s.size := by omega
    refine ⟨whole ▸ Nat.dvd_add start divides, ?_⟩
    intro r member
    rcases List.mem_cons.mp member with rfl | member
    · exact start
    · exact others r member

theorem tile_push (tile : Tile unit base origin size rs) (positive : 0 < n) (divides : unit ∣ n) :
    Tile unit base origin (size + n) (⟨base + size, origin + size, n⟩ :: rs) := by
  have lower : base + size - base = size := Nat.add_sub_cancel_left ..
  refine ⟨Nat.le_add_right .., Nat.add_assoc .., positive, divides, ?_, ?_⟩
  · dsimp only
    rw [lower]
  · dsimp only
    rwa [lower]

theorem tile_apart (tile : Tile unit base origin size rs) :
    rs.Pairwise fun r s => s.ptr + s.size ≤ r.ptr := by
  induction rs generalizing size with
  | nil => exact List.Pairwise.nil
  | cons r rs ih =>
    obtain ⟨low, -, -, -, here, below⟩ := tile
    refine List.pairwise_cons.mpr ⟨?_, ih below⟩
    intro s member
    obtain ⟨low', high, -, there⟩ := tile_inside below member
    omega

theorem tile_cover (tile : Tile unit base origin size rs) (inside : origin ≤ x ∧ x < origin + size) :
    ∃ r ∈ rs, r.ptr ≤ x ∧ x < r.ptr + r.size := by
  induction rs generalizing size with
  | nil =>
    rw [show size = 0 from tile] at inside
    omega
  | cons r rs ih =>
    obtain ⟨low, high, -, -, here, below⟩ := tile
    by_cases lower : x < r.ptr
    · obtain ⟨s, member, found⟩ := ih below ⟨inside.1, by omega⟩
      exact ⟨s, List.mem_cons_of_mem _ member, found⟩
    · exact ⟨r, List.mem_cons_self, by omega, by omega⟩

/-- Regions that started below a boundary fill the bytes below it. -/
theorem tile_filter (tile : Tile unit base origin size rs) (above : base < m)
    (boundary : m = base + size ∨ ∃ r ∈ rs, r.start = m) :
    Tile unit base origin (m - base) (rs.filter fun r => r.start < m) := by
  induction rs generalizing size with
  | nil =>
    rw [show size = 0 from tile] at boundary
    rcases boundary with end' | ⟨r, member, -⟩
    · omega
    · cases member
  | cons s rs ih =>
    obtain ⟨low, high, positive, divides, here, below⟩ := tile
    by_cases kept : s.start < m
    · have last : m = base + size := by
        rcases boundary with last | ⟨r, member, rfl⟩
        · exact last
        · rcases List.mem_cons.mp member with rfl | member
          · omega
          · have := tile_inside below member
            omega
      have all : rs.filter (fun r => r.start < m) = rs := by
        apply List.filter_eq_self.mpr
        intro r member
        have := tile_inside below member
        simp only [decide_eq_true_eq]
        omega
      rw [List.filter_cons_of_pos (by simpa using kept), all]
      exact ⟨low, by omega, positive, divides, here, below⟩
    · rw [List.filter_cons_of_neg (by simpa using kept)]
      apply ih below
      rcases boundary with last | ⟨r, member, same⟩
      · omega
      · rcases List.mem_cons.mp member with rfl | member
        · exact Or.inl (by omega)
        · exact Or.inr ⟨r, member, same⟩

theorem tiles_start (tiles : Tiles P cs rs) (member : r ∈ rs) : r.start + r.size ≤ total cs := by
  induction cs generalizing rs with
  | nil =>
    rw [show rs = [] from tiles] at member
    cases member
  | cons c cs ih =>
    obtain ⟨top, rest, rfl, tile, below⟩ := tiles
    rw [total_cons]
    rcases List.mem_append.mp member with member | member
    · have := tile_inside tile member
      omega
    · have := ih below member
      omega

theorem tiles_cut (tiles : Tiles P cs rs) (within : m ≤ total cs) (boundary : Boundary (total cs) rs m) :
    Tiles P (cut m cs) (rs.filter fun r => r.start < m) := by
  induction cs generalizing rs with
  | nil =>
    rw [show rs = [] from tiles]
    exact rfl
  | cons c cs ih =>
    obtain ⟨top, rest, rfl, tile, below⟩ := tiles
    rw [total_cons] at within boundary
    rw [cut, List.filter_append]
    split
    case isTrue above =>
      have kept : rest.filter (fun r => r.start < m) = rest := by
        apply List.filter_eq_self.mpr
        intro r member
        have := tiles_start below member
        simp only [decide_eq_true_eq]
        omega
      rw [kept]
      refine ⟨_, rest, rfl, tile_filter tile above ?_, below⟩
      rcases boundary with last | ⟨r, member, same⟩
      · exact Or.inl (by omega)
      · rcases List.mem_append.mp member with member | member
        · exact Or.inr ⟨r, member, same⟩
        · have := tiles_start below member
          omega
    case isFalse lower =>
      have dropped : top.filter (fun r => r.start < m) = [] := by
        apply List.filter_eq_nil_iff.mpr
        intro r member
        have := tile_inside tile member
        simp only [decide_eq_true_eq]
        omega
      rw [dropped, List.nil_append]
      apply ih below (by omega)
      rcases boundary with last | ⟨r, member, same⟩
      · exact Or.inl (by omega)
      · rcases List.mem_append.mp member with member | member
        · have := tile_inside tile member
          exact Or.inl (by omega)
        · exact Or.inr ⟨r, member, same⟩

theorem boundary_filter (boundary : Boundary size rs m) (lower : m ≤ m') (within : m' ≤ size) :
    Boundary m' (rs.filter fun r => r.start < m') m := by
  by_cases same : m = m'
  · exact Or.inl same
  · rcases boundary with last | ⟨r, member, rfl⟩
    · omega
    · exact Or.inr ⟨r, List.mem_filter.mpr ⟨member, by simp only [decide_eq_true_eq]; omega⟩, rfl⟩

theorem boundary_cons (boundary : Boundary r.start rs m) (size : Nat) : Boundary size (r :: rs) m := by
  rcases boundary with rfl | ⟨s, member, same⟩
  · exact Or.inr ⟨r, List.mem_cons_self, rfl⟩
  · exact Or.inr ⟨s, List.mem_cons_of_mem _ member, same⟩

theorem tiles_inside (tiles : Tiles P cs rs) (member : r ∈ rs) :
    ∃ c ∈ cs, c.block + headerSize P ≤ r.ptr ∧ r.ptr + r.size ≤ c.block + headerSize P + c.size ∧
      0 < r.size ∧ P.alignment ∣ r.ptr - (c.block + headerSize P) := by
  induction cs generalizing rs with
  | nil =>
    rw [show rs = [] from tiles] at member
    cases member
  | cons c cs ih =>
    obtain ⟨top, rest, rfl, tile, below⟩ := tiles
    rcases List.mem_append.mp member with member | member
    · obtain ⟨low, high, positive, here⟩ := tile_inside tile member
      have aligned := (tile_aligned tile).2 r member
      refine ⟨c, List.mem_cons_self, by omega, by omega, positive, ?_⟩
      rwa [here, Nat.add_sub_cancel_left]
    · obtain ⟨d, found, inside⟩ := ih below member
      exact ⟨d, List.mem_cons_of_mem _ found, inside⟩

theorem tiles_cover (tiles : Tiles P cs rs) (member : c ∈ cs)
    (inside : c.block + headerSize P ≤ x ∧ x < c.block + headerSize P + c.size) :
    ∃ r ∈ rs, r.ptr ≤ x ∧ x < r.ptr + r.size := by
  induction cs generalizing rs with
  | nil => cases member
  | cons d cs ih =>
    obtain ⟨top, rest, rfl, tile, below⟩ := tiles
    rcases List.mem_cons.mp member with rfl | member
    · obtain ⟨r, found, covers⟩ := tile_cover tile inside
      exact ⟨r, List.mem_append_left _ found, covers⟩
    · obtain ⟨r, found, covers⟩ := ih below member
      exact ⟨r, List.mem_append_right _ found, covers⟩

end Ratlib.Arena
