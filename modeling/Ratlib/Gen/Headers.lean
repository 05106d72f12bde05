import Ratlib.Gen.Layout

/-! What the header writers of ralcGen do to the chain: `block_setSize` with its
correction of the following block, and `block_split`. -/
namespace Ratlib.Gen

variable {P : Platform} {m : Mem} {p : RalcGen}

theorem and_maskUnused (even : 2 ∣ prev) (b : Blk) : (prev + b.flag) &&& maskUnused = b.flag := by
  have := b.flag_lt
  rw [maskUnused, Nat.and_one_is_mod]
  omega

theorem or_flag (even : 2 ∣ size) (b : Blk) : size ||| b.flag = size + b.flag := by
  obtain ⟨k, rfl⟩ := even
  have := Nat.two_pow_add_eq_or_of_lt (i := 1) (b := b.flag) (by have := b.flag_lt; omega) k
  simpa using this.symm

theorem and_maskPrevsize (even : 2 ∣ prev) (b : Blk) (small : prev + b.flag ≤ P.sizeMax) :
    (prev + b.flag) &&& maskPrevsize P = prev := by
  have range : P.sizeMax = 2 ^ (8 * P.sizeT) - 1 := by
    rw [Platform.sizeMax, Nat.pow_mul]
  have positive := Nat.two_pow_pos (8 * P.sizeT)
  have below : prev + b.flag < 2 ^ (8 * P.sizeT) := by omega
  obtain ⟨k, rfl⟩ := even
  have bit := b.flag_lt
  apply Nat.eq_of_testBit_eq
  intro i
  rw [maskPrevsize, range, maskUnused, Nat.testBit_and, Nat.testBit_xor, Nat.testBit_two_pow_sub_one]
  cases i with
  | zero =>
    have := P.sizeT_ge
    simp [show 0 < P.sizeT by omega]
  | succ i =>
    have one : Nat.testBit 1 (i + 1) = false := by simp [Nat.testBit_succ]
    have half : (2 * k + b.flag) / 2 = k := by omega
    have double : 2 * k / 2 = k := by omega
    rw [one, Nat.testBit_succ, half, Nat.testBit_succ, double, Bool.xor_false]
    by_cases inside : i + 1 < 8 * P.sizeT
    · simp [inside]
    · have out : k.testBit i = false := by
        apply Nat.testBit_lt_two_pow
        have := Nat.pow_le_pow_right (n := 2) (by omega) (show 8 * P.sizeT ≤ i + 1 by omega)
        rw [Nat.pow_succ] at this
        omega
      simp [out]

section Words
variable {block b : Nat}

@[simp] theorem prevSizeUnused_put (small : value ≤ P.sizeMax) :
    prevSizeUnused P (putPrevSizeUnused P m block value) block = value := Platform.get_put small

theorem prevSizeUnused_put_out (apart : b + P.sizeT ≤ block ∨ block + P.sizeT ≤ b) :
    prevSizeUnused P (putPrevSizeUnused P m block value) b = prevSizeUnused P m b :=
  Platform.get_put_out apart

@[simp] theorem prevSizeUnused_putBlockSize :
    prevSizeUnused P (putBlockSize P m block value) block = prevSizeUnused P m block :=
  Platform.get_put_out (by omega)

@[simp] theorem blockSize_put (small : value ≤ P.sizeMax) :
    blockSize P (putBlockSize P m block value) block = value := Platform.get_put small

@[simp] theorem blockSize_putPrevSizeUnused :
    blockSize P (putPrevSizeUnused P m block value) block = blockSize P m block :=
  Platform.get_put_out (by omega)

theorem putPrevSizeUnused_out (outside : x < block ∨ block + P.sizeT ≤ x) :
    putPrevSizeUnused P m block value x = m x := Platform.put_out outside

theorem putBlockSize_out (outside : x < block + P.sizeT ∨ block + sizeofBlock P ≤ x) :
    putBlockSize P m block value x = m x :=
  Platform.put_out (by rw [sizeofBlock] at outside; omega)

theorem prevSizeUnused_congr (same : Set.EqOn m m' (Set.Ico block (block + P.sizeT))) :
    prevSizeUnused P m block = prevSizeUnused P m' block := Platform.get_congr same

theorem blockSize_congr
    (same : Set.EqOn m m' (Set.Ico (block + P.sizeT) (block + sizeofBlock P))) :
    blockSize P m block = blockSize P m' block :=
  Platform.get_congr (by rwa [Nat.add_assoc, ← Nat.two_mul])

end Words

/-- `block_setSize` writes the size and hands it to the block that follows, if any. -/
theorem blockSetSize_spec {post : List Blk} (small : size ≤ P.sizeMax) (even : 2 ∣ size)
    (even' : 2 ∣ prev) (chain : Chain P m (data P block + size) prev post)
    (extent : data P block + size + span P post = p.buf + p.size) :
    let m' := blockSetSize P p m block size
    prevSizeUnused P m' block = prevSizeUnused P m block ∧ blockSize P m' block = size ∧
      Chain P m' (data P block + size) size post ∧
      ∀ x, x < block + P.sizeT ∨ (data P block ≤ x ∧ (x < data P block + size ∨ post = [] ∨
        data P block + size + P.sizeT ≤ x)) → m' x = m x := by
  have written : blockSize P (putBlockSize P m block size) block = size := blockSize_put small
  have next : blockNext P (putBlockSize P m block size) block = data P block + size := by
    rw [blockNext, written]
  have start : data P block = block + sizeofBlock P := rfl
  have width : sizeofBlock P = 2 * P.sizeT := rfl
  have step := P.sizeT_ge
  intro m'
  have run : m' = if blockIsEnd p (data P block + size) then putBlockSize P m block size
      else putPrevSizeUnused P (putBlockSize P m block size) (data P block + size)
        (size ||| blockIsUnused P (putBlockSize P m block size) (data P block + size)) := by
    simp only [m', blockSetSize, next]
  cases post with
  | nil =>
    have ends : blockIsEnd p (data P block + size) = true := by
      simp only [span_nil] at extent
      simp [blockIsEnd, extent.symm]
    rw [if_pos ends] at run
    rw [run]
    refine ⟨prevSizeUnused_putBlockSize, written, trivial, ?_⟩
    intro x outside
    exact putBlockSize_out (by omega)
  | cons b post =>
    have inside : blockIsEnd p (data P block + size) = false := by
      have := span_pos (P := P) b post
      simp [blockIsEnd]
      omega
    rw [inside, if_neg (by decide)] at run
    have kept : Set.EqOn m (putBlockSize P m block size)
        (Set.Ico (data P block + size) (data P block + size + span P (b :: post))) := by
      intro x hx
      have := hx.1
      exact (putBlockSize_out (by omega)).symm
    obtain ⟨word, tail⟩ := chain_congr kept chain
    have flag : blockIsUnused P (putBlockSize P m block size) (data P block + size) = b.flag := by
      rw [blockIsUnused, word, and_maskUnused even']
    rw [flag, or_flag even] at run
    have fits : size + b.flag ≤ P.sizeMax := by
      have := b.flag_lt
      have := P.sizeMax_succ
      have : 2 ∣ 256 ^ P.sizeT := dvd_pow (by omega : 2 ∣ 256) (by omega)
      omega
    rw [run]
    refine ⟨?_, ?_, ?_, ?_⟩
    · rw [prevSizeUnused_put_out (by omega), prevSizeUnused_putBlockSize]
    · refine Eq.trans (blockSize_congr ?_) written
      intro x hx
      have := hx.2
      exact putPrevSizeUnused_out (by omega)
    · refine chain_reprev (chain_congr kept chain) (prevSizeUnused_put fits) ?_
      intro x hx
      exact (putPrevSizeUnused_out (Or.inr hx.1)).symm
    · intro x outside
      rw [putPrevSizeUnused_out, putBlockSize_out]
      · omega
      · rcases outside with low | ⟨low, mid | none | high⟩
        · omega
        · omega
        · contradiction
        · omega

/-- The blocks `block_split` makes of `availableSize` bytes behind a header. -/
def splitBlks (P : Platform) (availableSize usedSize : Nat) : List Blk :=
  if sizeofBlock P ≤ availableSize - usedSize then
    [⟨usedSize, false⟩, ⟨availableSize - usedSize - sizeofBlock P, true⟩]
  else [⟨availableSize, false⟩]

def splitSize (P : Platform) (availableSize usedSize : Nat) : Nat :=
  if sizeofBlock P ≤ availableSize - usedSize then usedSize else availableSize

/-- Clearing the unused flag of a block whose other fields are in place. -/
theorem chain_clear {b : Blk} (even : 2 ∣ prev) (small : prev + b.flag ≤ P.sizeMax)
    (word : prevSizeUnused P m block = prev + b.flag) (size : blockSize P m block = n)
    (chain : Chain P m (data P block + n) n rest) :
    Chain P (putPrevSizeUnused P m block (prevSizeUnused P m block &&& maskPrevsize P)) block prev
      (⟨n, false⟩ :: rest) := by
  rw [word, and_maskPrevsize even b small]
  refine ⟨?_, ?_, chain_congr ?_ chain⟩
  · rw [prevSizeUnused_put (by omega), Blk.flag_used, Nat.add_zero]
  · rw [blockSize_putPrevSizeUnused, size]
  · intro x hx
    have := hx.1
    rw [data, sizeofBlock] at this
    exact (putPrevSizeUnused_out (by omega)).symm

/-- A fresh unused header before a chain, as `block_split` writes it. -/
theorem chain_hole {post : List Blk} (size : blockSize P m next = n)
    (chain : Chain P m (data P next + n) n post) :
    Chain P (putPrevSizeUnused P m next maskUnused) next 0 (⟨n, true⟩ :: post) := by
  refine ⟨?_, ?_, chain_congr ?_ chain⟩
  · rw [prevSizeUnused_put]
    · rfl
    · have := P.sizeMax_ge
      rw [maskUnused]
      omega
  · rw [blockSize_putPrevSizeUnused, size]
  · intro x hx
    have := hx.1
    rw [data, sizeofBlock] at this
    exact (putPrevSizeUnused_out (by omega)).symm

/-- `block_split` lays its blocks over the available bytes and keeps what lies before
the header, the bytes in use and what lies behind the next header's first word. -/
theorem blockSplit_spec {b : Blk} {post : List Blk} (ordered : used ≤ available)
    (even : 2 ∣ used) (evenAvailable : 2 ∣ available) (evenPrev : 2 ∣ prev) (evenNext : 2 ∣ next)
    (small : prev + b.flag ≤ P.sizeMax) (fits : available ≤ P.sizeMax)
    (word : prevSizeUnused P m block = prev + b.flag)
    (chain : Chain P m (data P block + available) next post)
    (extent : data P block + available + span P post = p.buf + p.size) :
    (blockSplit P p m block available used).2 = splitSize P available used ∧
      Chain P (blockSplit P p m block available used).1 block prev
        (splitBlks P available used ++ post) ∧
      ∀ x, x < block ∨ (data P block ≤ x ∧ x < data P block + used) ∨
        data P block + available + P.sizeT ≤ x → (blockSplit P p m block available used).1 x = m x := by
  have start : data P block = block + sizeofBlock P := rfl
  have width : sizeofBlock P = 2 * P.sizeT := rfl
  simp only [blockSplit, Platform.sub_of_le ordered fits, splitBlks, splitSize, ge_iff_le]
  split
  case isTrue room =>
    rw [Platform.sub_of_le room (by omega)]
    have behind : data P (data P block + used) + (available - used - sizeofBlock P) =
        data P block + available := by
      simp only [data]
      omega
    rw [← behind] at chain extent
    obtain ⟨-, size₁, chain₁, frame₁⟩ :=
      blockSetSize_spec (by omega) (by omega) evenNext chain extent
    generalize blockSetSize P p m (data P block + used) (available - used - sizeofBlock P) = m₁
      at size₁ chain₁ frame₁ ⊢
    have chain₂ := chain_hole size₁ chain₁
    have frame₂ : ∀ x, x < data P block + used → 
        putPrevSizeUnused P m₁ (data P block + used) maskUnused x = m₁ x :=
      fun x below => putPrevSizeUnused_out (Or.inl below)
    have frame₂' : ∀ x, data P (data P block + used) ≤ x → 
        putPrevSizeUnused P m₁ (data P block + used) maskUnused x = m₁ x :=
      fun x above => putPrevSizeUnused_out (Or.inr (by rw [data] at above; omega))
    generalize putPrevSizeUnused P m₁ (data P block + used) maskUnused = m₂ at chain₂ frame₂ frame₂' ⊢
    obtain ⟨word₃, size₃, chain₃, frame₃⟩ := blockSetSize_spec (P := P) (p := p) (m := m₂)
      (by omega) even (by omega) chain₂ (by simp only [span_cons]; omega)
    generalize blockSetSize P p m₂ block used = m₃ at word₃ size₃ chain₃ frame₃ ⊢
    have kept : prevSizeUnused P m₂ block = prevSizeUnused P m block := by
      apply prevSizeUnused_congr
      intro x hx
      have := hx.2
      rw [frame₂ x (by omega), frame₁ x (by omega)]
    refine ⟨rfl, chain_clear evenPrev small (by rw [word₃, kept, word]) size₃ chain₃, ?_⟩
    intro x outside
    have here : data P (data P block + used) = data P block + used + sizeofBlock P := rfl
    rw [putPrevSizeUnused_out (by omega), frame₃ x (by omega)]
    rcases outside with low | ⟨low, high⟩ | high
    · rw [frame₂ x (by omega), frame₁ x (by omega)]
    · rw [frame₂ x (by omega), frame₁ x (by omega)]
    · rw [frame₂' x (by omega), frame₁ x (by omega)]
  case isFalse tight =>
    obtain ⟨word₁, size₁, chain₁, frame₁⟩ := blockSetSize_spec (P := P) fits evenAvailable evenNext
      chain extent
    refine ⟨rfl, chain_clear evenPrev small (by rw [word₁, word]) size₁ chain₁, ?_⟩
    intro x outside
    rw [putPrevSizeUnused_out (by omega), frame₁ x (by omega)]

end Ratlib.Gen
