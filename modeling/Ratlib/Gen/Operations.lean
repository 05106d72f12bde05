import Ratlib.Gen.Merge

/-! What each call of ralcGen does to a whole buffer: the blocks it leaves, the
objects it gives and takes, and everything it keeps. -/
namespace Ratlib.Gen

variable {P : Platform} {g : Grain P} {m m' m'' : Mem} {p p' p'' : RalcGen} {bs bs' bs'' : List Blk}
  {left right : List Blk}

/-- The buffer changed in a legal way around the objects at the addresses `but`. -/
structure Frame {P : Platform} (g : Grain P) (but : Set Nat) (p : RalcGen) (m : Mem) (bs : List Blk)
    (p' : RalcGen) (m' : Mem) (bs' : List Blk) : Prop where
  layout : Layout g p' m' bs'
  buf : p'.buf = p.buf
  cap : p'.cap = p.cap
  objects : ∀ q ∉ but, ∀ k, Object P p.buf bs' q k ↔ Object P p.buf bs q k
  bytes : ∀ q ∉ but, ∀ k, Object P p.buf bs q k → Set.EqOn m m' (Set.Ico q (q + k))
  outside : ∀ x, x < p.buf ∨ p.buf + p.cap ≤ x → m' x = m x

theorem Frame.trans (first : Frame g but p m bs p' m' bs')
    (second : Frame g but' p' m' bs' p'' m'' bs'') :
    Frame g (but ∪ but') p m bs p'' m'' bs'' := by
  have objects := second.objects
  have bytes := second.bytes
  have outside := second.outside
  rw [first.buf] at objects bytes outside
  rw [first.cap] at outside
  refine ⟨second.layout, second.buf.trans first.buf, second.cap.trans first.cap, ?_, ?_, ?_⟩
  · intro q other k
    rw [objects q (fun h => other (Or.inr h)) k, first.objects q (fun h => other (Or.inl h)) k]
  · intro q other k object
    have kept := (first.objects q (fun h => other (Or.inl h)) k).mpr object
    exact (first.bytes q (fun h => other (Or.inl h)) k object).trans
      (bytes q (fun h => other (Or.inr h)) k kept)
  · intro x apart
    rw [outside x apart, first.outside x apart]

theorem Frame.mono (frame : Frame g but p m bs p' m' bs') (more : but ⊆ but') :
    Frame g but' p m bs p' m' bs' where
  layout := frame.layout
  buf := frame.buf
  cap := frame.cap
  objects q other := frame.objects q fun h => other (more h)
  bytes q other := frame.bytes q fun h => other (more h)
  outside := frame.outside

theorem Layout.init (region : 0 < buf ∧ buf + cap ≤ P.sizeMax) (m : Mem) :
    Layout g ⟨buf, cap, 0⟩ m [] where
  chain := trivial
  extent := rfl
  within := Nat.zero_le _
  addressable := region
  aligned := by simp
  separated := List.isChain_nil
  tailUsed := by simp [TailUsed]

theorem Layout.payload (layout : Layout g p m bs)
    (inside : ∀ x, p.buf ≤ x → x < p.buf + p.cap → m x ≠ m' x →
      ∃ ptr size, Object P p.buf bs ptr size ∧ ptr ≤ x ∧ x < ptr + size) : Layout g p m' bs where
  chain := chain_payload layout.chain fun x low high changed =>
    inside x low (by have := layout.extent; have := layout.within; omega) changed
  extent := layout.extent
  within := layout.within
  addressable := layout.addressable
  aligned := layout.aligned
  separated := layout.separated
  tailUsed := layout.tailUsed

theorem Layout.bounds (layout : Layout g p m bs) (object : Object P p.buf bs ptr size) :
    p.buf + sizeofBlock P ≤ ptr ∧ ptr + size ≤ p.buf + p.size := by
  rw [← layout.extent]
  exact object_bounds object

theorem Layout.front (layout : Layout g p m (pre ++ bs ++ post)) : Chain P m p.buf 0 pre := by
  have chain := layout.chain
  rw [List.append_assoc] at chain
  exact (chain_append.mp chain).1

/-- Blocks inside the buffer give way to others over the same bytes. -/
theorem Frame.replace {pre mid mid' post : List Blk} (layout : Layout g p m (pre ++ mid ++ post))
    (spans : span P mid' = span P mid) (chain : Chain P m' p.buf 0 (pre ++ mid' ++ post))
    (kept : ∀ x, x < p.buf + span P pre ∨ p.buf + span P (pre ++ mid) + P.sizeT ≤ x → m' x = m x)
    (inner : post ≠ []) (aligned : ∀ b ∈ mid', g.unit ∣ b.size)
    (separated : Separated (pre ++ mid' ++ post))
    (old : ∀ q k, Object P (p.buf + span P pre) mid q k → q ∈ but)
    (new : ∀ q k, Object P (p.buf + span P pre) mid' q k → q ∈ but) :
    Frame g but p m (pre ++ mid ++ post) p m' (pre ++ mid' ++ post) := by
  have extent := layout.extent
  have within := layout.within
  have width : sizeofBlock P = 2 * P.sizeT := rfl
  have positive : sizeofBlock P ≤ span P post := by
    obtain ⟨c, rest, same⟩ := List.exists_cons_of_ne_nil inner
    rw [same, span_cons]
    omega
  simp only [span_append] at extent kept
  refine ⟨⟨chain, ?_, within, layout.addressable, ?_, separated, ?_⟩, rfl, rfl, ?_, ?_, ?_⟩
  · simp only [span_append, spans]
    omega
  · intro b member
    simp only [List.mem_append] at member
    rcases member with (member | member) | member
    · exact layout.aligned b (by simp [member])
    · exact aligned b member
    · exact layout.aligned b (by simp [member])
  · have used := layout.tailUsed
    rw [TailUsed, List.getLast?_append_of_ne_nil _ inner] at used
    exact tailUsed_append used inner
  · intro q other k
    simp only [object_append, span_append, spans]
    have gone : ¬Object P (p.buf + span P pre) mid q k := fun object => other (old q k object)
    have none : ¬Object P (p.buf + span P pre) mid' q k := fun object => other (new q k object)
    simp only [gone, none]
  · intro q other k object x hx
    have low := hx.1
    have high := hx.2
    rw [object_append, object_append] at object
    rcases object with (object | object) | object
    · have := object_bounds object
      exact (kept x (by omega)).symm
    · exact (other (old q k object)).elim
    · have := object_bounds object
      rw [span_append] at this
      exact (kept x (by omega)).symm
  · intro x outside
    exact kept x (by omega)

theorem Layout.object_positive (layout : Layout g p m bs) (object : Object P p.buf bs ptr n) :
    ptr ≠ 0 := by
  have := layout.bounds object
  have := layout.addressable
  omega

section Split

theorem span_splitBlks (ordered : used ≤ available) :
    span P (splitBlks P available used) = sizeofBlock P + available := by
  rw [splitBlks]
  split
  · simp
    omega
  · simp

theorem splitBlks_cons (available used : Nat) :
    ∃ rest, splitBlks P available used = ⟨splitSize P available used, false⟩ :: rest ∧ Hole rest := by
  rw [splitBlks, splitSize]
  split
  · exact ⟨_, rfl, Or.inr ⟨_, rfl⟩⟩
  · exact ⟨_, rfl, Or.inl rfl⟩

theorem le_splitSize (ordered : used ≤ available) : used ≤ splitSize P available used := by
  rw [splitSize]
  split <;> omega

theorem splitBlks_aligned (header : unit ∣ sizeofBlock P) (divides : unit ∣ used)
    (divides' : unit ∣ available) : ∀ b ∈ splitBlks P available used, unit ∣ b.size := by
  intro b member
  rw [splitBlks] at member
  split at member
  · rcases List.mem_cons.mp member with rfl | member
    · exact divides
    · rw [List.mem_singleton.mp member]
      exact Nat.dvd_sub (Nat.dvd_sub divides' divides) header
  · rw [List.mem_singleton.mp member]
    exact divides'

theorem splitBlks_separated {pre post : List Blk} (before : Separated pre) (behind : Separated post)
    (after : HeadUsed post) : Separated (pre ++ (splitBlks P available used ++ post)) := by
  obtain ⟨rest, same, hole⟩ := splitBlks_cons (P := P) available used
  rw [same]
  have back : Separated (rest ++ post) := by
    refine List.isChain_append.mpr ⟨?_, behind, ?_⟩
    · rcases hole with rfl | ⟨k, rfl⟩ <;> simp
    · intro x _ y first both
      simp [after y first] at both
  refine List.isChain_append.mpr ⟨before, ?_, ?_⟩
  · refine List.isChain_cons.mpr ⟨?_, back⟩
    intro y _ both
    simp at both
  · intro x _ y first both
    simp only [List.cons_append, List.head?_cons, Option.mem_def, Option.some.injEq] at first
    simp [← first] at both

theorem blockSplit_frame {b : Blk} {pre more post : List Blk}
    (layout : Layout g p m (pre ++ (b :: more) ++ post)) (hole : Hole more) (after : HeadUsed post)
    (inner : post ≠ []) (fits : available = b.size + span P more) (ordered : used ≤ available)
    (divides : g.unit ∣ used) :
    let block := p.buf + span P pre
    let split := blockSplit P p m block available used
    ∃ bs', Frame g {data P block} p m (pre ++ (b :: more) ++ post) p split.1 bs' ∧
      Object P p.buf bs' (data P block) split.2 ∧ used ≤ split.2 ∧
      Set.EqOn m split.1 (Set.Ico (data P block) (data P block + used)) := by
  intro block split
  have even := layout.even
  have room := layout.room
  have extent := layout.extent
  have evenMore : 2 ∣ span P more := span_even fun c member => even c (by simp [member])
  have evenBlock : 2 ∣ b.size := even b (by simp)
  have below := endSize_le (P := P) pre
  have flag := b.flag_lt
  have start : data P block = block + sizeofBlock P := rfl
  have width := sizeofBlock_ge (P := P)
  simp only [span_append, span_cons] at room extent
  have regroup : pre ++ (b :: more) ++ post = pre ++ b :: (more ++ post) := by simp
  obtain ⟨word, size, chain⟩ := (regroup ▸ layout).header
  have back : Chain P m (data P block + available) (endSize b.size more) post := by
    rw [fits, ← Nat.add_assoc]
    exact (chain_append.mp chain).2
  obtain ⟨returned, laid, kept⟩ := blockSplit_spec (P := P) (p := p) (m := m) (b := b) ordered
    (Nat.dvd_trans g.even divides) (by omega)
    (endSize_dvd (Nat.dvd_zero 2) fun c member => even c (by simp [member]))
    (endSize_dvd evenBlock fun c member => even c (by simp [member])) (by omega) (by omega) word
    back (by simp only [data]; omega)
  obtain ⟨rest, blocks, restHole⟩ := splitBlks_cons (P := P) available used
  have spans := span_splitBlks (P := P) ordered
  obtain ⟨separatedPre, separatedPost, -⟩ := List.isChain_append.mp layout.separated
  refine ⟨pre ++ splitBlks P available used ++ post, Frame.replace layout ?_ ?_ ?_ inner ?_ ?_ ?_ ?_,
    ?_, ?_, ?_⟩
  · simp only [spans, span_cons]
    omega
  · rw [List.append_assoc]
    refine chain_append.mpr ⟨chain_congr ?_ layout.front, laid⟩
    intro x hx
    exact (kept x (Or.inl hx.2)).symm
  · intro x outside
    apply kept
    simp only [span_append, span_cons, data] at outside ⊢
    omega
  · apply splitBlks_aligned g.header divides
    rw [fits]
    exact Nat.dvd_add (layout.aligned b (by simp))
      (span_dvd g.header fun c member => layout.aligned c (by simp [member]))
  · rw [List.append_assoc]
    exact splitBlks_separated (List.isChain_append.mp separatedPre).1 separatedPost after
  · intro q k object
    rcases object with ⟨-, rfl, -⟩ | object
    · rfl
    · exact (hole_object hole object).elim
  · intro q k object
    rw [blocks] at object
    rcases object with ⟨-, rfl, -⟩ | object
    · rfl
    · exact (hole_object restHole object).elim
  · rw [blocks, returned, List.append_assoc]
    exact object_middle pre (rest ++ post)
  · rw [returned]
    exact le_splitSize ordered
  · intro x hx
    exact (kept x (Or.inr (Or.inl hx))).symm

end Split

section Free

/-- A block that is merged at the end is cut off, with the hole before it. -/
theorem merge_end_frame (layout : Layout g p m bs) (around : Surround bs pre left n right post)
    (last : right ++ post = []) :
    let ptr := data P (p.buf + span P (pre ++ left))
    Frame g {ptr} p m bs { p with size := span P pre } m pre ∧ ∀ k, ¬Object P p.buf pre ptr k := by
  intro ptr
  have width := sizeofBlock_ge (P := P)
  have extent := layout.extent
  have within := layout.within
  obtain ⟨rfl, hole, -, before, -⟩ := around
  have chain := layout.chain
  have separated := layout.separated
  rw [last, List.append_assoc] at chain separated
  simp only [span_append] at extent
  refine ⟨⟨⟨(chain_append.mp chain).1, rfl, by dsimp only; omega, layout.addressable, ?_,
    (List.isChain_append.mp separated).1, before⟩, rfl, rfl, ?_, ?_, fun _ _ => rfl⟩, ?_⟩
  · exact fun b member => layout.aligned b (by simp [member])
  · intro q other k
    rw [last, object_append, object_append]
    simp only [hole_object hole, Object, or_false]
    constructor
    · exact Or.inl
    · rintro (object | ⟨-, rfl, -⟩)
      · exact object
      · exact (other rfl).elim
  · exact fun _ _ _ _ _ _ => rfl
  · intro k object
    have := (object_bounds object).2
    simp only [ptr, data, span_append] at this
    omega

/-- The holes around a block and the block itself divide as one hole. -/
theorem Surround.merged_dvd (around : Surround bs pre left n right post) (layout : Layout g p m bs) :
    g.unit ∣ span P left + n + span P right := by
  obtain ⟨rfl, -, -, -, -⟩ := around
  have dvd : ∀ c ∈ left ++ ⟨n, false⟩ :: right, g.unit ∣ c.size := fun c member => by
    apply layout.aligned
    simp only [List.mem_append, List.mem_cons] at member ⊢
    tauto
  exact Nat.dvd_add (Nat.dvd_add (span_dvd g.header fun c member => dvd c (by simp [member]))
    (dvd ⟨n, false⟩ (by simp))) (span_dvd g.header fun c member => dvd c (by simp [member]))

/-- A block that is merged inside becomes one hole with those around it. -/
theorem merge_inside_frame (layout : Layout g p m bs) (around : Surround bs pre left n right post)
    (more : right ++ post ≠ []) :
    let ptr := data P (p.buf + span P (pre ++ left))
    let bs' := pre ++ [⟨span P left + n + span P right, true⟩] ++ post
    Frame g {ptr} p m bs p (blockMerge P p m (p.buf + span P (pre ++ left))).2 bs' ∧
      ∀ k, ¬Object P p.buf bs' ptr k := by
  intro ptr bs'
  have width := sizeofBlock_ge (P := P)
  obtain ⟨-, chain, kept⟩ := blockMerge_inside layout around more
  have inner := around.inner layout more
  have dvd := around.merged_dvd layout
  obtain ⟨rfl, holeLeft, holeRight, before, after⟩ := around
  have regroup : (pre ++ left) ++ ⟨n, false⟩ :: (right ++ post) =
      pre ++ (left ++ ⟨n, false⟩ :: right) ++ post := by simp
  rw [regroup] at layout ⊢
  refine ⟨Frame.replace layout ?_ (by simpa [bs'] using chain) ?_ inner ?_ ?_ ?_ ?_, ?_⟩
  · simp only [span_append, span_cons, span_nil]
    omega
  · intro x outside
    apply kept
    simp only [span_append, span_cons, data] at outside ⊢
    omega
  · intro b member
    rw [List.mem_singleton.mp member]
    exact dvd
  · obtain ⟨separatedFront, separatedPost, -⟩ := List.isChain_append.mp layout.separated
    rw [List.append_assoc]
    refine List.isChain_append.mpr ⟨(List.isChain_append.mp separatedFront).1,
      List.isChain_cons.mpr ⟨?_, separatedPost⟩, ?_⟩
    · intro y first both
      simp [after y first] at both
    · intro x final y _ both
      simp [before x final] at both
  · intro q k object
    rw [object_append] at object
    rcases object with object | ⟨-, rfl, -⟩ | object
    · exact (hole_object holeLeft object).elim
    · simp [ptr, Nat.add_assoc]
    · exact (hole_object holeRight object).elim
  · intro q k object
    simp [Object] at object
  · intro k object
    rw [object_append, object_append] at object
    rcases object with (object | object) | object
    · have := (object_bounds object).2
      simp only [ptr, data, span_append] at this
      omega
    · simp [Object] at object
    · have := object_bounds object
      simp only [ptr, data, span_append, span_cons, span_nil] at this
      omega

/-- `ralcGen_free` of a live object takes that object and no other. -/
theorem ralcGenFree_frame (layout : Layout g p m bs)
    (object : Object P p.buf bs ptr n) :
    ∃ bs', Frame g {ptr} p m bs (ralcGenFree P p m ptr).1 (ralcGenFree P p m ptr).2 bs' ∧
      ∀ k, ¬Object P p.buf bs' ptr k := by
  obtain ⟨pre, left, right, post, around, rfl⟩ := object_surround layout object
  have block : data P (p.buf + span P (pre ++ left)) - sizeofBlock P =
      p.buf + span P (pre ++ left) := Nat.add_sub_cancel ..
  rw [ralcGenFree, block]
  by_cases last : right ++ post = []
  · rw [blockMerge_end layout around last]
    exact ⟨pre, merge_end_frame layout around last⟩
  · obtain ⟨same, -, -⟩ := blockMerge_inside layout around last
    rw [same]
    exact ⟨_, merge_inside_frame layout around last⟩

end Free

section Alloc

/-- The loop stops at the first hole that is large enough, or at the end. -/
theorem allocWalk_spec (size : Nat) (layout : Layout g p m (front ++ rest)) (enough : span P rest ≤ rounds) :
    (∃ pre k post, rest = pre ++ ⟨k, true⟩ :: post ∧ size ≤ k ∧
      allocWalk P p m size rounds (p.buf + span P front) (endSize 0 front) =
        .hole (p.buf + span P (front ++ pre))) ∨
    allocWalk P p m size rounds (p.buf + span P front) (endSize 0 front) =
      .tail (p.buf + p.size) (endSize 0 (front ++ rest)) := by
  induction rest generalizing front rounds with
  | nil =>
    have extent := layout.extent
    rw [List.append_nil] at extent layout ⊢
    right
    cases rounds with
    | zero => rw [allocWalk, extent]
    | succ rounds => rw [allocWalk, if_pos layout.ends, extent]
  | cons b rest ih =>
    have width := sizeofBlock_ge (P := P)
    simp only [span_cons] at enough
    have size' := layout.header.2.1
    have flag := layout.isUnused
    have inside := Bool.eq_false_iff.mp layout.inside
    have last : endSize 0 (front ++ [b]) = b.size := by simp
    obtain ⟨rounds, rfl⟩ : ∃ r, rounds = r + 1 := ⟨rounds - 1, by omega⟩
    rw [allocWalk, if_neg inside, flag, size', layout.next]
    split
    case isTrue fits =>
      have unused : b = ⟨b.size, true⟩ := by
        cases b with
        | mk n u => cases u <;> simp_all
      exact Or.inl ⟨[], b.size, rest, by rw [← unused]; rfl, fits.2, by rw [List.append_nil]⟩
    case isFalse =>
      have layout' : Layout g p m ((front ++ [b]) ++ rest) := by simpa using layout
      have step := ih layout' (show span P rest ≤ rounds by omega)
      rw [last] at step
      rcases step with ⟨pre, k, post, rfl, fits, found⟩ | ended
      · exact Or.inl ⟨b :: pre, k, post, rfl, fits, by simpa using found⟩
      · exact Or.inr (by simpa using ended)

/-- `ralcGen_alloc` changes nothing, or adds one object of at least the size asked for. -/
def Allocated {P : Platform} (g : Grain P) (p : RalcGen) (m : Mem) (bs : List Blk) (size : Nat)
    (result : Reply × RalcGen × Mem) : Prop :=
  result = (.null, p, m) ∨ ∃ q n bs', result.1 = ⟨q, some n⟩ ∧ size ≤ n ∧
    Frame g {q} p m bs result.2.1 result.2.2 bs' ∧ Object P p.buf bs' q n ∧
    ∀ k, ¬Object P p.buf bs q k

theorem tail_frame (layout : Layout g p m bs) (divides : g.unit ∣ n)
    (room : p.size + (sizeofBlock P + n) ≤ p.cap) :
    let block := p.buf + p.size
    let p' := { p with size := p.size + (sizeofBlock P + n) }
    let m' := putBlockSize P (putPrevSizeUnused P m block (endSize 0 bs)) block n
    Frame g {data P block} p m bs p' m' (bs ++ [⟨n, false⟩]) := by
  intro block p' m'
  have extent := layout.extent
  have addressable := layout.addressable
  have below := endSize_le (P := P) bs
  have width : sizeofBlock P = 2 * P.sizeT := rfl
  have kept : ∀ x, x < block ∨ block + sizeofBlock P ≤ x → m' x = m x := by
    intro x outside
    dsimp only [m']
    rw [putBlockSize_out (by omega), putPrevSizeUnused_out (by omega)]
  refine ⟨⟨?_, ?_, room, addressable, ?_, ?_, ?_⟩, rfl, rfl, ?_, ?_, ?_⟩
  · refine chain_append.mpr ⟨chain_congr ?_ layout.chain, ?_, ?_, trivial⟩
    · intro x hx
      have := hx.2
      exact (kept x (by dsimp only [p'] at this; omega)).symm
    · dsimp only [m', p', block]
      rw [extent, prevSizeUnused_putBlockSize, prevSizeUnused_put (by omega)]
      rfl
    · dsimp only [m', p', block]
      rw [extent, blockSize_put (by omega)]
  · simp [p', extent]
  · intro b member
    rcases List.mem_append.mp member with member | member
    · exact layout.aligned b member
    · rw [List.mem_singleton.mp member]
      exact divides
  · refine List.isChain_append.mpr ⟨layout.separated, by simp, ?_⟩
    intro x final y _ both
    simp [layout.tailUsed x final] at both
  · exact tailUsed_append (by simp [TailUsed]) (by simp)
  · intro q other k
    rw [object_append]
    have none : ¬Object P (p.buf + span P bs) [⟨n, false⟩] q k := by
      rintro (⟨-, rfl, -⟩ | object)
      · exact other (by rw [extent]; rfl)
      · exact object
    simp only [none, or_false]
  · intro q _ k object x hx
    have := layout.bounds object
    have := hx.2
    exact (kept x (by omega)).symm
  · intro x outside
    exact kept x (by omega)

theorem ralcGenAlloc_cases (layout : Layout g p m bs)
    (admits : AdmitsSize P size) : Allocated g p m bs size (ralcGenAlloc P p m size) := by
  have rounded := Platform.le_ratAlign admits.1
  have divides := Nat.dvd_trans g.alignment (Platform.ratAlign_dvd size)
  have extent := layout.extent
  have within := layout.within
  have addressable := layout.addressable
  have width := sizeofBlock_ge (P := P)
  have layout' : Layout g p m ([] ++ bs) := layout
  have walk := allocWalk_spec (P.ratAlign size) layout' extent.le
  simp only [List.nil_append, span_nil, Nat.add_zero, endSize_nil] at walk
  simp only [ralcGenAlloc]
  rcases walk with ⟨pre, k, post, rfl, fits, found⟩ | ended
  · have large : blockSize P m (p.buf + span P pre) = k := layout.header.2.1
    have separated := layout.separated
    have inner : post ≠ [] := by
      rintro rfl
      have used := layout.tailUsed ⟨k, true⟩ (by simp)
      simp at used
    have after : HeadUsed post := by
      intro c first
      have apart := (List.isChain_cons.mp (List.isChain_append.mp separated).2.1).1 c first
      simpa using apart
    have layout' : Layout g p m (pre ++ (⟨k, true⟩ :: []) ++ post) := by simpa using layout
    obtain ⟨bs', frame, object, grown, -⟩ :=
      blockSplit_frame layout' (Or.inl rfl) after inner (Nat.add_zero k).symm fits divides
    rw [found]
    dsimp only
    rw [large]
    refine Or.inr ⟨_, _, bs', rfl, Nat.le_trans rounded grown, by simpa using frame, object, ?_⟩
    intro n old
    rw [object_append] at old
    rcases old with old | old
    · have := object_bounds old
      simp only [data] at this
      omega
    · have : ¬Object P (p.buf + span P pre) (⟨k, true⟩ :: post) (data P (p.buf + span P pre)) n := by
        rintro (⟨used, -⟩ | old)
        · simp at used
        · have := object_bounds old
          omega
      exact this old
  · rw [ended]
    dsimp only
    rw [Platform.sub_of_le within (by omega), Platform.add_of_le admits.2]
    split
    case isTrue => exact Or.inl rfl
    case isFalse room =>
      rw [Platform.add_of_le (by omega)]
      refine Or.inr ⟨_, _, _, rfl, rounded, tail_frame layout divides (by omega), ?_, ?_⟩
      · rw [← extent]
        exact object_middle bs []
      · intro k object
        have := layout.bounds object
        simp only [data] at this
        omega

end Alloc

section Realloc

theorem object_header (layout : Layout g p m bs) (object : Object P p.buf bs ptr n) :
    blockSize P m (ptr - sizeofBlock P) = n := by
  obtain ⟨pre, post, rfl, rfl⟩ := object_split object
  rw [data, Nat.add_sub_cancel]
  exact layout.header.2.1

/-- `ralcGen_realloc` changes nothing, or turns the object into one of at least the
size asked for, which begins with the old bytes. -/
def Reallocated {P : Platform} (g : Grain P) (p : RalcGen) (m : Mem) (bs : List Blk) (ptr oldSize newSize : Nat)
    (result : Reply × RalcGen × Mem) : Prop :=
  result = (.null, p, m) ∨ ∃ q n bs', result.1 = ⟨q, some n⟩ ∧ newSize ≤ n ∧
    Frame g {ptr, q} p m bs result.2.1 result.2.2 bs' ∧ Object P p.buf bs' q n ∧
    (q ≠ ptr → ∀ k, ¬Object P p.buf bs' ptr k ∧ ¬Object P p.buf bs q k) ∧
    ∀ i < min oldSize newSize, result.2.2 (q + i) = m (ptr + i)

theorem resize_frame {pre : List Blk} (layout : Layout g p m (pre ++ [⟨o, false⟩]))
    (divides : g.unit ∣ n) (room : p.size - o + n ≤ p.cap) :
    let block := p.buf + span P pre
    let p' := { p with size := p.size - o + n }
    Frame g {data P block} p m (pre ++ [⟨o, false⟩]) p' (putBlockSize P m block n)
      (pre ++ [⟨n, false⟩]) := by
  intro block p'
  have extent := layout.extent
  have within := layout.within
  have addressable := layout.addressable
  have width : sizeofBlock P = 2 * P.sizeT := rfl
  have separated := List.isChain_append.mp layout.separated
  simp only [span_append, span_cons, span_nil] at extent
  have kept : ∀ x, x < block ∨ block + sizeofBlock P ≤ x → putBlockSize P m block n x = m x :=
    fun x outside => putBlockSize_out (by omega)
  have gone : ∀ k q l, q ≠ data P block → ¬Object P block [⟨k, false⟩] q l := by
    rintro k q l other (⟨-, rfl, -⟩ | object)
    · exact other rfl
    · exact object
  refine ⟨⟨?_, ?_, room, addressable, ?_, ?_, ?_⟩, rfl, rfl, ?_, ?_, ?_⟩
  · refine chain_append.mpr ⟨chain_congr ?_ (chain_append.mp layout.chain).1, ?_, ?_, trivial⟩
    · exact fun x hx => (kept x (Or.inl hx.2)).symm
    · rw [prevSizeUnused_putBlockSize]
      exact layout.header.1
    · exact blockSize_put (by omega)
  · simp only [span_append, span_cons, span_nil, p']
    omega
  · intro b member
    rcases List.mem_append.mp member with member | member
    · exact layout.aligned b (by simp [member])
    · rw [List.mem_singleton.mp member]
      exact divides
  · refine List.isChain_append.mpr ⟨separated.1, by simp, ?_⟩
    intro x _ y first both
    simp only [List.head?_cons, Option.mem_def, Option.some.injEq] at first
    simp [← first] at both
  · exact tailUsed_append (by simp [TailUsed]) (by simp)
  · intro q other k
    rw [object_append, object_append]
    have old := gone o q k other
    have new := gone n q k other
    simp only [block] at old new
    simp only [old, new]
  · intro q other k object x hx
    have := hx.2
    rw [object_append] at object
    rcases object with object | object
    · have := object_bounds object
      exact (kept x (by omega)).symm
    · exact (gone o q k other object).elim
  · intro x outside
    exact kept x (by omega)

theorem copy_frame (layout : Layout g p m bs) (target : Object P p.buf bs q n) (fits : o ≤ n)
    (src : Nat) : Frame g {q} p m bs p (m.copy q src o) bs := by
  have within := layout.within
  have bounds := layout.bounds target
  refine ⟨layout.payload ?_, rfl, rfl, fun _ _ _ => Iff.rfl, ?_, ?_⟩
  · intro x _ _ changed
    refine ⟨q, n, target, ?_⟩
    by_contra outside
    exact changed (Mem.copy_out (by omega)).symm
  · intro r other k object x hx
    have low := hx.1
    have high := hx.2
    have apart := object_separate target object
    rw [Set.mem_singleton_iff] at other
    exact (Mem.copy_out (by omega)).symm
  · intro x outside
    exact Mem.copy_out (by omega)

/-- The path of `ralcGen_realloc` through a new block. -/
theorem move_cases (layout : Layout g p m bs)
    (object : Object P p.buf bs ptr o) (larger : o ≤ newSize) (asked : request ≤ newSize)
    (allocated : Allocated g p m bs newSize (reply, p', m')) :
    Reallocated g p m bs ptr o request
      (if reply.ptr = 0 then (reply, p', m')
      else
        let m := m'.copy reply.ptr ptr (blockSize P m' (ptr - sizeofBlock P))
        let (p, m) := blockMerge P p' m (ptr - sizeofBlock P)
        (reply, p, m)) := by
  rcases allocated with same | ⟨q, n, bs', rfl, grown, frame, target, fresh⟩
  · obtain ⟨rfl, rfl, rfl⟩ : reply = .null ∧ p' = p ∧ m' = m := by simpa using same
    exact Or.inl (if_pos rfl)
  · dsimp only at frame grown target ⊢
    have different : ptr ≠ q := by
      rintro rfl
      exact fresh o object
    have kept : Object P p'.buf bs' ptr o := by
      rw [frame.buf]
      exact (frame.objects ptr different o).mpr object
    rw [← frame.buf] at target
    have positive : q ≠ 0 := by
      have := frame.layout.bounds target
      have := frame.layout.addressable
      omega
    rw [if_neg positive, object_header frame.layout kept]
    have copied := copy_frame frame.layout target (show o ≤ n by omega) ptr
    obtain ⟨bs'', freed, none⟩ := ralcGenFree_frame copied.layout kept
    have target' := (freed.objects q (Ne.symm different) n).mpr target
    rw [frame.buf] at none target'
    refine Or.inr ⟨q, n, bs'', rfl, by omega, ((frame.trans copied).trans freed).mono ?_, target', ?_, ?_⟩
    · intro x member
      simp only [Set.mem_union, Set.mem_singleton_iff, Set.mem_insert_iff] at member ⊢
      tauto
    · exact fun _ k => ⟨none k, fresh k⟩
    · intro i small
      have inner : q + i ∈ Set.Ico q (q + n) := ⟨by omega, by omega⟩
      have source : ptr + i ∈ Set.Ico ptr (ptr + o) := ⟨by omega, by omega⟩
      rw [frame.bytes ptr different o object source]
      refine (freed.bytes q (Ne.symm different) n target inner).symm.trans ?_
      exact Mem.copy_in (by omega)

/-- The paths of `ralcGen_realloc` that keep the block where it is. -/
theorem stay_cases (object : Object P p.buf bs' ptr n) (grown : newSize ≤ n)
    (frame : Frame g {ptr} p m bs p' m' bs')
    (bytes : Set.EqOn m m' (Set.Ico ptr (ptr + min o newSize))) :
    Reallocated g p m bs ptr o newSize (⟨ptr, some n⟩, p', m') := by
  refine Or.inr ⟨ptr, n, bs', rfl, grown, frame.mono (by simp), object, fun h => absurd rfl h, ?_⟩
  intro i small
  exact (bytes ⟨by omega, by omega⟩).symm

theorem Surround.isEnd (layout : Layout g p m bs) (around : Surround bs pre left n right post) :
    blockIsEnd p (data P (p.buf + span P (pre ++ left)) + n) = true ↔ right ++ post = [] := by
  have behind := around.behind layout
  rw [blockIsEnd, decide_eq_true_eq]
  constructor
  · intro ends
    by_contra more
    obtain ⟨b, rest, same⟩ := List.exists_cons_of_ne_nil more
    have := span_pos (P := P) b rest
    rw [same] at behind
    omega
  · intro last
    rw [last, span_nil] at behind
    omega

theorem ralcGenRealloc_cases (layout : Layout g p m bs)
    (object : Object P p.buf bs ptr o) (admits : AdmitsResize P p m ptr newSize) :
    Reallocated g p m bs ptr o newSize (ralcGenRealloc P p m ptr newSize) := by
  obtain ⟨admitted, resized⟩ := admits
  obtain ⟨inner, total⟩ := resized (layout.object_positive object)
  have rounded := Platform.le_ratAlign admitted.1
  have divides := Nat.dvd_trans g.alignment (Platform.ratAlign_dvd newSize)
  have addressable := layout.addressable
  have within := layout.within
  have bounds := layout.bounds object
  have moved := ralcGenAlloc_cases layout inner
  have size := object_header layout object
  obtain ⟨pre, left, right, post, around, rfl⟩ := object_surround layout object
  have behind := around.behind layout
  have isEnd := around.isEnd layout
  have after := added_after layout around
  have block : data P (p.buf + span P (pre ++ left)) - sizeofBlock P =
      p.buf + span P (pre ++ left) := Nat.add_sub_cancel ..
  have next : blockNext P m (p.buf + span P (pre ++ left)) =
      data P (p.buf + span P (pre ++ left)) + o := by
    rw [blockNext, ← block, size, block]
  have move : o ≤ P.ratAlign newSize → _ := fun larger =>
    move_cases layout object larger rounded moved
  rw [block] at size total move
  rw [next, size] at total
  rw [ralcGenRealloc, if_neg (by omega), block]
  simp only [next, size]
  by_cases last : right ++ post = []
  · have ends := isEnd.mpr last
    have total := total ends
    rw [Platform.sub_of_le (by omega) (by omega), Platform.add_of_le total]
    simp only [ends, if_true, true_and]
    split
    case isTrue room =>
      obtain ⟨rfl, -, -, -, -⟩ := around
      rw [last] at layout ⊢
      refine stay_cases (object_middle (pre ++ left) []) rounded (resize_frame layout divides room) ?_
      intro x hx
      exact (putBlockSize_out (Or.inr hx.1)).symm
    case isFalse full =>
      rw [if_neg (by omega)]
      exact move (by omega)
  · have inside : blockIsEnd p (data P (p.buf + span P (pre ++ left)) + o) = false :=
      Bool.eq_false_iff.mpr fun ends => last (isEnd.mp ends)
    rw [span_append right] at behind
    simp only [inside, Bool.false_eq_true, if_false, false_and, after last]
    rw [Platform.add_of_le (by omega)]
    split
    case isTrue fits =>
      have inner := around.inner layout last
      obtain ⟨rfl, -, hole, -, behindUsed⟩ := around
      have regroup : (pre ++ left) ++ ⟨o, false⟩ :: (right ++ post) =
          (pre ++ left) ++ (⟨o, false⟩ :: right) ++ post := by simp
      rw [regroup] at layout ⊢
      obtain ⟨bs', frame, object', grown, bytes⟩ :=
        blockSplit_frame layout hole behindUsed inner rfl fits divides
      refine stay_cases object' (Nat.le_trans rounded grown) frame ?_
      intro x hx
      exact bytes ⟨hx.1, by have := hx.2; omega⟩
    case isFalse small =>
      exact move (by omega)

end Realloc

end Ratlib.Gen
