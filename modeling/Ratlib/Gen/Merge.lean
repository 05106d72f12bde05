import Ratlib.Gen.Headers

/-! `block_merge` on a whole buffer: the block and the unused neighbours around it
become one unused block, or the tail of the buffer goes away with them. -/
namespace Ratlib.Gen

variable {P : Platform} {g : Grain P} {m : Mem} {p : RalcGen} {bs pre left right post : List Blk}

/-- At most one block, and unused. -/
def Hole (bs : List Blk) : Prop := bs = [] ∨ ∃ n, bs = [⟨n, true⟩]

/-- A used block of `n` bytes among the blocks, with the holes next to it. -/
structure Surround (bs pre left : List Blk) (n : Nat) (right post : List Blk) : Prop where
  whole : bs = (pre ++ left) ++ ⟨n, false⟩ :: (right ++ post)
  left : Hole left
  right : Hole right
  before : TailUsed pre
  after : HeadUsed post

theorem hole_object (hole : Hole bs) : ¬Object P a bs ptr n := by
  rcases hole with rfl | ⟨k, rfl⟩ <;> simp [Object]

theorem tailUsed_append (used : TailUsed bs) (more : bs ≠ []) : TailUsed (pre ++ bs) := by
  intro b last
  rw [List.getLast?_append_of_ne_nil _ more] at last
  exact used b last

theorem hole_before (separated : Separated bs) :
    ∃ pre left, bs = pre ++ left ∧ Hole left ∧ TailUsed pre := by
  rcases bs.eq_nil_or_concat' with rfl | ⟨pre, b, rfl⟩
  · exact ⟨[], [], rfl, Or.inl rfl, by simp [TailUsed]⟩
  · cases flag : b.unused with
    | false => exact ⟨pre ++ [b], [], by simp, Or.inl rfl, by simp [TailUsed, flag]⟩
    | true =>
      refine ⟨pre, [b], rfl, Or.inr ⟨b.size, by rw [← flag]⟩, ?_⟩
      intro c last
      have apart := (List.isChain_append.mp separated).2.2 c last b (by simp)
      simpa [flag] using apart

theorem hole_after (separated : Separated bs) :
    ∃ right post, bs = right ++ post ∧ Hole right ∧ HeadUsed post := by
  cases bs with
  | nil => exact ⟨[], [], rfl, Or.inl rfl, by simp [HeadUsed]⟩
  | cons b post =>
    cases flag : b.unused with
    | false => exact ⟨[], b :: post, rfl, Or.inl rfl, by simp [HeadUsed, flag]⟩
    | true =>
      refine ⟨[b], post, rfl, Or.inr ⟨b.size, by rw [← flag]⟩, ?_⟩
      intro c first
      have apart := (List.isChain_cons.mp separated).1 c first
      simpa [flag] using apart

theorem object_surround (layout : Layout g p m bs) (object : Object P p.buf bs ptr n) :
    ∃ pre left right post, Surround bs pre left n right post ∧
      ptr = data P (p.buf + span P (pre ++ left)) := by
  obtain ⟨front, back, rfl, rfl⟩ := object_split object
  obtain ⟨separatedFront, separatedBack, -⟩ := List.isChain_append.mp layout.separated
  obtain ⟨pre, left, rfl, holeLeft, before⟩ := hole_before separatedFront
  obtain ⟨right, post, rfl, holeRight, after⟩ := hole_after (List.isChain_cons.mp separatedBack).2
  exact ⟨pre, left, right, post, ⟨rfl, holeLeft, holeRight, before, after⟩, rfl⟩

theorem endSize_dvd (divides : d ∣ prev) (aligned : ∀ b ∈ bs, d ∣ b.size) : d ∣ endSize prev bs := by
  induction bs generalizing prev with
  | nil => exact divides
  | cons b bs ih =>
    exact ih (aligned b List.mem_cons_self) fun c member => aligned c (List.mem_cons_of_mem _ member)

theorem endSize_le (bs : List Blk) : endSize 0 bs ≤ span P bs := by
  rcases bs.eq_nil_or_concat' with rfl | ⟨pre, b, rfl⟩
  · simp
  · simp
    omega

theorem size_le_span {b : Blk} (member : b ∈ bs) : sizeofBlock P + b.size ≤ span P bs := by
  obtain ⟨pre, post, rfl⟩ := List.append_of_mem member
  simp only [span_append, span_cons]
  omega

theorem or_maskUnused (even : 2 ∣ prev) (b : Blk) : (prev + b.flag) ||| maskUnused = prev + 1 := by
  have one := or_flag even ⟨0, true⟩
  rw [Blk.flag_unused] at one
  rw [← or_flag even b, Nat.or_assoc, maskUnused, ← one]
  congr 1
  rw [Blk.flag]
  split <;> rfl

theorem Layout.even (layout : Layout g p m bs) : ∀ b ∈ bs, 2 ∣ b.size :=
  fun b member => Nat.dvd_trans g.even (layout.aligned b member)

theorem Layout.room (layout : Layout g p m bs) : p.buf + span P bs ≤ P.sizeMax := by
  have := layout.extent
  have := layout.within
  have := layout.addressable
  omega

theorem Layout.header {b : Blk} (layout : Layout g p m (pre ++ b :: post)) :
    prevSizeUnused P m (p.buf + span P pre) = endSize 0 pre + b.flag ∧
      blockSize P m (p.buf + span P pre) = b.size ∧
      Chain P m (data P (p.buf + span P pre) + b.size) b.size post :=
  (chain_append.mp layout.chain).2

theorem Layout.isUnused {b : Blk} (layout : Layout g p m (pre ++ b :: post)) :
    blockIsUnused P m (p.buf + span P pre) = b.flag := by
  rw [blockIsUnused, layout.header.1]
  exact and_maskUnused (endSize_dvd (Nat.dvd_zero 2) fun c member =>
    layout.even c (List.mem_append_left _ member)) b

theorem Layout.prev {b c : Blk} (layout : Layout g p m (pre ++ c :: b :: post)) :
    blockPrev P m (p.buf + span P (pre ++ [c])) = p.buf + span P pre := by
  rw [List.append_cons] at layout
  have fits := size_le_span (P := P) (show c ∈ pre ++ [c] ++ b :: post by simp)
  have room := layout.room
  have flag := b.flag_lt
  have := sizeofBlock_ge (P := P)
  have even : 2 ∣ c.size := layout.even c (by simp)
  rw [blockPrev, layout.header.1, endSize_append, endSize_cons, endSize_nil,
    and_maskPrevsize even b (by omega)]
  simp only [span_append, span_cons, span_nil]
  omega

theorem Layout.next {b : Blk} (layout : Layout g p m (pre ++ b :: post)) :
    blockNext P m (p.buf + span P pre) = p.buf + span P (pre ++ [b]) := by
  rw [blockNext, layout.header.2.1]
  simp only [data, span_append, span_cons, span_nil]
  omega

theorem Layout.inside {b : Blk} (layout : Layout g p m (pre ++ b :: post)) :
    blockIsEnd p (p.buf + span P pre) = false := by
  have extent := layout.extent
  have width := sizeofBlock_ge (P := P)
  simp only [span_append, span_cons] at extent
  simp only [blockIsEnd, decide_eq_false_iff_not]
  omega

theorem Layout.ends (layout : Layout g p m bs) : blockIsEnd p (p.buf + span P bs) = true := by
  simp [blockIsEnd, layout.extent]

/-- The bytes gained in front of a block: those of the hole there. -/
theorem added_before (layout : Layout g p m bs) (around : Surround bs pre left n right post) :
    (if blockHasPrev p (p.buf + span P (pre ++ left)) then
      if blockIsUnused P m (blockPrev P m (p.buf + span P (pre ++ left))) ≠ 0 then
        P.add (blockSize P m (blockPrev P m (p.buf + span P (pre ++ left)))) (sizeofBlock P)
      else 0
    else 0) = span P left := by
  obtain ⟨rfl, hole, -, before, -⟩ := around
  rcases hole with rfl | ⟨k, rfl⟩
  · rcases pre.eq_nil_or_concat' with rfl | ⟨rest, c, rfl⟩
    · simp [blockHasPrev]
    · have used : c.unused = false := before c (by simp)
      have layout' : Layout g p m (rest ++ c :: ⟨n, false⟩ :: (right ++ post)) := by
        simpa using layout
      simp only [List.append_nil, layout'.prev, layout'.isUnused, Blk.flag, used]
      simp
  · have layout' : Layout g p m (pre ++ ⟨k, true⟩ :: ⟨n, false⟩ :: (right ++ post)) := by
      simpa using layout
    have fits := size_le_span (P := P)
      (show ⟨k, true⟩ ∈ pre ++ ⟨k, true⟩ :: ⟨n, false⟩ :: (right ++ post) by simp)
    have room := layout'.room
    have behind : blockHasPrev p (p.buf + span P (pre ++ [⟨k, true⟩])) = true := by
      have := sizeofBlock_ge (P := P)
      simp [blockHasPrev]
      omega
    rw [layout'.prev, layout'.isUnused, layout'.header.2.1, behind, Platform.add_of_le (by omega)]
    simp [Nat.add_comm]

/-- The bytes gained behind a block that is not the last. -/
theorem added_after (layout : Layout g p m bs) (around : Surround bs pre left n right post)
    (more : right ++ post ≠ []) :
    (if blockIsUnused P m (data P (p.buf + span P (pre ++ left)) + n) ≠ 0 then
      P.add (sizeofBlock P) (blockSize P m (data P (p.buf + span P (pre ++ left)) + n))
    else 0) = span P right := by
  obtain ⟨rfl, -, hole, -, after⟩ := around
  have behind : data P (p.buf + span P (pre ++ left)) + n =
      p.buf + span P (pre ++ left ++ [⟨n, false⟩]) := by
    simp only [data, span_append, span_cons, span_nil]
    omega
  rw [behind]
  rcases hole with rfl | ⟨k, rfl⟩
  · cases post with
    | nil => contradiction
    | cons c rest =>
      have used : c.unused = false := after c (by simp)
      have layout' : Layout g p m ((pre ++ left ++ [⟨n, false⟩]) ++ c :: rest) := by
        simpa using layout
      simp only [layout'.isUnused, Blk.flag, used]
      simp
  · have layout' : Layout g p m ((pre ++ left ++ [⟨n, false⟩]) ++ ⟨k, true⟩ :: post) := by
      simpa using layout
    have fits := size_le_span (P := P)
      (show ⟨k, true⟩ ∈ (pre ++ left ++ [⟨n, false⟩]) ++ ⟨k, true⟩ :: post by simp)
    have room := layout'.room
    rw [layout'.isUnused, layout'.header.2.1, Platform.add_of_le (by omega)]
    simp

theorem Surround.behind (layout : Layout g p m bs) (around : Surround bs pre left n right post) :
    data P (p.buf + span P (pre ++ left)) + n + span P (right ++ post) = p.buf + p.size := by
  obtain ⟨rfl, -, -, -, -⟩ := around
  have := layout.extent
  simp only [span_append, span_cons, data] at this ⊢
  omega

theorem Surround.inner (layout : Layout g p m bs) (around : Surround bs pre left n right post)
    (more : right ++ post ≠ []) : post ≠ [] := by
  rintro rfl
  obtain ⟨rfl, -, hole, -, -⟩ := around
  rcases hole with rfl | ⟨k, rfl⟩
  · exact more rfl
  · have used := layout.tailUsed ⟨k, true⟩ (by simp)
    simp at used

/-- `block_merge` at the end of the buffer writes nothing. -/
theorem blockMerge_end (layout : Layout g p m bs) (around : Surround bs pre left n right post)
    (last : right ++ post = []) :
    blockMerge P p m (p.buf + span P (pre ++ left)) = ({ p with size := span P pre }, m) := by
  have added := added_before layout around
  have behind := around.behind layout
  obtain ⟨rfl, -, -, -, -⟩ := around
  have size : blockSize P m (p.buf + span P (pre ++ left)) = n := layout.header.2.1
  have extent := layout.extent
  have room := layout.room
  simp only [last, span_append, span_cons, span_nil, data] at behind extent room
  have ends : blockIsEnd p (data P (p.buf + span P (pre ++ left) - span P left) + (n + span P left)) =
      true := by
    simp only [blockIsEnd, data, decide_eq_true_eq, span_append]
    omega
  simp only [blockMerge, added, size, Platform.add_of_le (show n + span P left ≤ P.sizeMax by omega),
    ends, if_true]
  rw [Platform.add_of_le (by omega), Platform.sub_of_le (by omega) (by omega)]
  congr 2
  omega

theorem blockMerge_run (layout : Layout g p m bs) (around : Surround bs pre left n right post)
    (more : right ++ post ≠ []) :
    let m' := blockSetSize P p m (p.buf + span P pre) (span P left + n + span P right)
    blockMerge P p m (p.buf + span P (pre ++ left)) =
      (p, putPrevSizeUnused P m' (p.buf + span P pre)
        (prevSizeUnused P m' (p.buf + span P pre) ||| maskUnused)) := by
  have before := added_before layout around
  have after := added_after layout around more
  have behind := around.behind layout
  obtain ⟨rfl, -, -, -, -⟩ := around
  have size : blockSize P m (p.buf + span P (pre ++ left)) = n := layout.header.2.1
  have room := layout.room
  have start : p.buf + span P (pre ++ left) - span P left = p.buf + span P pre := by
    simp only [span_append]
    omega
  have next : data P (p.buf + span P pre) + (n + span P left) =
      data P (p.buf + span P (pre ++ left)) + n := by
    simp only [data, span_append]
    omega
  have inside : blockIsEnd p (data P (p.buf + span P (pre ++ left)) + n) = false := by
    obtain ⟨b, rest, same⟩ := List.exists_cons_of_ne_nil more
    have := span_pos (P := P) b rest
    rw [same] at behind
    simp only [blockIsEnd, decide_eq_false_iff_not]
    omega
  simp only [span_append, span_cons] at room
  simp only [blockMerge, before, size, start,
    Platform.add_of_le (show n + span P left ≤ P.sizeMax by omega), next, inside, after]
  rw [if_neg Bool.false_ne_true, Platform.add_of_le (by omega), Nat.add_comm n (span P left)]

theorem span_dvd (header : d ∣ sizeofBlock P) (aligned : ∀ b ∈ bs, d ∣ b.size) : d ∣ span P bs := by
  induction bs with
  | nil => simp
  | cons b bs ih =>
    exact Nat.dvd_add (Nat.dvd_add header (aligned b List.mem_cons_self))
      (ih fun c member => aligned c (List.mem_cons_of_mem _ member))

theorem span_even (even : ∀ b ∈ bs, 2 ∣ b.size) : 2 ∣ span P bs := span_dvd ⟨P.sizeT, rfl⟩ even

/-- The chain seen from the first of the blocks `block_merge` joins. -/
theorem Surround.chains (layout : Layout g p m bs) (around : Surround bs pre left n right post) :
    Chain P m p.buf 0 pre ∧
      (∃ b : Blk, prevSizeUnused P m (p.buf + span P pre) = endSize 0 pre + b.flag) ∧
      ∃ prev, 2 ∣ prev ∧
        Chain P m (data P (p.buf + span P pre) + (span P left + n + span P right)) prev post := by
  obtain ⟨rfl, hole, -, -, -⟩ := around
  have chain := layout.chain
  simp only [List.append_assoc] at chain
  refine ⟨(chain_append.mp chain).1, ?_, endSize 0 ((pre ++ left) ++ ⟨n, false⟩ :: right), ?_, ?_⟩
  · rcases hole with rfl | ⟨k, rfl⟩
    · exact ⟨⟨n, false⟩, (chain_append.mp chain).2.1⟩
    · exact ⟨⟨k, true⟩, (chain_append.mp chain).2.1⟩
  · apply endSize_dvd (Nat.dvd_zero 2)
    intro b member
    apply layout.even
    simp only [List.mem_append, List.mem_cons] at member ⊢
    tauto
  · have start : data P (p.buf + span P pre) + (span P left + n + span P right) =
        p.buf + span P ((pre ++ left) ++ ⟨n, false⟩ :: right) := by
      simp only [data, span_append, span_cons]
      omega
    rw [start]
    have regroup : pre ++ (left ++ ⟨n, false⟩ :: (right ++ post)) =
        ((pre ++ left) ++ ⟨n, false⟩ :: right) ++ post := by simp
    rw [regroup] at chain
    exact (chain_append.mp chain).2

/-- `block_merge` inside the buffer makes one unused block of the three. -/
theorem blockMerge_inside (layout : Layout g p m bs) (around : Surround bs pre left n right post)
    (more : right ++ post ≠ []) :
    (blockMerge P p m (p.buf + span P (pre ++ left))).1 = p ∧
      Chain P (blockMerge P p m (p.buf + span P (pre ++ left))).2 p.buf 0
        (pre ++ ⟨span P left + n + span P right, true⟩ :: post) ∧
      ∀ x, x < p.buf + span P pre ∨
          data P (p.buf + span P pre) + (span P left + n + span P right) + P.sizeT ≤ x →
        (blockMerge P p m (p.buf + span P (pre ++ left))).2 x = m x := by
  rw [blockMerge_run layout around more]
  obtain ⟨front, ⟨b, word⟩, prev, evenPrev, back⟩ := around.chains layout
  obtain ⟨rfl, -, -, -, -⟩ := around
  have room := layout.room
  have extent := layout.extent
  have even := layout.even
  have evenLeft : 2 ∣ span P left := span_even fun c member => even c (by simp [member])
  have evenRight : 2 ∣ span P right := span_even fun c member => even c (by simp [member])
  have evenSize : 2 ∣ n := even ⟨n, false⟩ (by simp)
  have evenBefore : 2 ∣ endSize 0 pre :=
    endSize_dvd (Nat.dvd_zero 2) fun c member => even c (by simp [member])
  have below := endSize_le (P := P) pre
  have width : sizeofBlock P = 2 * P.sizeT := rfl
  have step := P.sizeT_ge
  simp only [span_append, span_cons] at room extent
  obtain ⟨word₁, size₁, chain₁, frame₁⟩ := blockSetSize_spec (P := P) (p := p) (by omega)
    (by omega) evenPrev back (by simp only [data]; omega)
  generalize blockSetSize P p m (p.buf + span P pre) (span P left + n + span P right) = m₁
    at word₁ size₁ chain₁ frame₁ ⊢
  rw [word₁, word, or_maskUnused evenBefore]
  dsimp only
  refine ⟨rfl, ?_, ?_⟩
  · refine chain_append.mpr ⟨chain_congr ?_ front, ?_, ?_, chain_congr ?_ chain₁⟩
    · intro x hx
      have := hx.2
      rw [putPrevSizeUnused_out (by omega), frame₁ x (by omega)]
    · rw [prevSizeUnused_put (by omega)]
      rfl
    · rw [blockSize_putPrevSizeUnused, size₁]
    · intro x hx
      have := hx.1
      rw [data] at this
      rw [putPrevSizeUnused_out (by omega)]
  · intro x outside
    simp only [data] at outside frame₁
    rw [putPrevSizeUnused_out (by omega), frame₁ x (by omega)]

end Ratlib.Gen
