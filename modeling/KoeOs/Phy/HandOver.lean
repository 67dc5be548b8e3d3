/-
# `KoeOs.Phy.HandOver` — from the boot allocator to the page allocator

`PhysicalMemoryRecord::new` takes memory for its records from the boot allocator,
freezes it, and marks the free blocks that are left in a new buddy system.  Three
layers count differently on the way:

    aligned_split    moves the base of a block up to a page, and keeps its size;
                     its pieces are aligned relative to the first one
    the frame index  is relative to the managed range
    free_forced      rounds the index down at every level

So what is marked for a block of `S` pages from frame `k` on is a `Stretch`, and if the
first piece has order `o`, the frames recorded free are

    floor_o k, …, k + S - 1

where `floor_o` rounds down to a multiple of `2 ^ o` (`Frees`).  The hand-over is
exact when the upper end is inside the block, and the frames below `k` are free
for another reason (`Clean`).
-/
import KoeOs.Lib.Rough
import KoeOs.Phy.MemblockRun
import KoeOs.Phy.RecordRun
import KoeOs.Phy.Stretch

namespace Koe

open Node MaxTree

/-! ## The free blocks stay sorted -/

namespace MemblockSystem

variable {range : AddrRange uma}

/-- The free blocks are sorted, and the managed range is `range`. -/
def Sorted (range : AddrRange uma) (s : MemblockSystem) : Prop :=
  s.managedRange = range ∧ s.freeBlocks.Ascending

theorem preserves_onReserved {α : Type} (x : Code Memblocks α) :
    Code.Preserves (Sorted range) (onReserved x) :=
  Code.Preserves.zoom (J := fun _ => True) (fun _ _ _ _ _ => trivial) (fun _ _ => trivial)
    fun _ _ hs _ => hs

theorem preserves_onFree {α : Type} {x : Code Memblocks α}
    (hx : Code.Preserves Memblocks.Ascending x) : Code.Preserves (Sorted range) (onFree x) :=
  hx.zoom (fun _ hs => hs.2) fun _ _ hs ht => ⟨hs.1, ht⟩

theorem preserves_reserveLoop (layout : Layout) (fuel : ℕ) :
    Code.Preserves (Sorted range) (reserveLoop layout fuel) := by
  induction fuel with
  | zero => exact Code.preserves_throw _
  | succ fuel ih =>
      refine Code.preserves_get_bind fun s b t hs h => ?_
      refine Code.Preserves.bind (Code.preserves_assert _ _) (fun _ => ?_) s b t hs h
      split
      · exact Code.preserves_pure _
      · refine (Usize.preserves_nextMultipleOf _ _).bind fun base => ?_
        refine Code.Preserves.bind (Code.preserves_modify fun _ hs => hs) fun _ => ?_
        refine (Usize.preserves_add _ _).bind fun offset => ?_
        refine Code.Preserves.bind (Code.preserves_modify fun _ hs => hs) fun _ => ?_
        refine Code.preserves_ite ?_ ((Addr.preserves_new _).bind fun _ => Code.preserves_pure _)
        refine (preserves_onReserved _).bind fun _ => ?_
        refine (preserves_onFree Memblocks.preserves_pop).bind fun _ => ?_
        exact Code.Preserves.bind (Code.preserves_modify fun _ hs => hs) fun _ => ih

theorem preserves_reserve (layout : Layout) : Code.Preserves (Sorted range) (reserve layout) :=
  Code.preserves_get_bind fun s b t hs h => preserves_reserveLoop layout _ s b t hs h

theorem preserves_freeze : Code.Preserves (Sorted range) freeze := by
  refine Code.preserves_get_bind fun s b t hs h => ?_
  refine Code.Preserves.bind (Code.preserves_assert _ _) (fun _ => ?_) s b t hs h
  refine Code.Preserves.bind (fun _ _ _ _ h => ?_) fun _ => ?_
  · cases h; exact hs
  · have hins : ∀ block, Code.Preserves (Sorted range) (onFree (Memblocks.insert block)) :=
      fun block => preserves_onFree (Memblocks.preserves_insert block)
    split
    · exact Code.preserves_pure _
    · have hcut (partialBlock : Memblock) : Code.Preserves (Sorted range) (do
          let freeBase ← partialBlock.base.byteAdd s.offset
          let freeSize ← Usize.sub partialBlock.size s.offset
          let _ ← onFree (Memblocks.insert ⟨freeBase, freeSize, .free⟩)
          let _ ← onReserved (Memblocks.insert ⟨partialBlock.base, s.offset, .reserved⟩)) := by
        refine (Addr.preserves_byteAdd _ _).bind fun _ => ?_
        refine (Usize.preserves_sub _ _).bind fun _ => ?_
        refine (hins _).bind fun _ => ?_
        exact (preserves_onReserved _).bind fun _ => Code.preserves_pure _
      exact Code.preserves_ite ((hins _).bind fun _ => hcut _) (hcut _)

end MemblockSystem

/-! ## What is prepared -/

section Alloc

variable {σ : Type} {I : σ → Prop} {alloc : Layout → Code σ (Option ℕ)}

theorem ArrayForest.preserves_new {α : Type} (halloc : ∀ l, Code.Preserves I (alloc l))
    (elem : Layout) (treeCnt treeDepth : ℕ) (fill : α) :
    Code.Preserves I (ArrayForest.new elem treeCnt treeDepth alloc fill) := by
  refine Code.Preserves.bind ?_ fun l => (halloc l).bind fun o => ?_
  · exact Code.preserves_ite (Code.preserves_expect _ _) (Code.preserves_throw _)
  · cases o with
    | none => exact Code.preserves_pure _
    | some _ => exact Code.preserves_pure _

theorem BuddySystem.preserves_new (halloc : ∀ l, Code.Preserves I (alloc l)) (pageCnt : ℕ) :
    Code.Preserves I (BuddySystem.new pageCnt alloc) := by
  refine (Usize.preserves_nextPowerOfTwo _).bind fun _ => ?_
  refine (ArrayForest.preserves_new halloc _ _ _ _).bind fun o => ?_
  cases o with
  | none => exact Code.preserves_pure _
  | some _ => exact Code.preserves_pure _

end Alloc

theorem preserves_bootAllocate {range : AddrRange uma} (layout : Layout) :
    Code.Preserves (MemblockSystem.Sorted range) (bootAllocate layout) := by
  refine (MemblockSystem.preserves_reserve layout).bind fun o => ?_
  cases o with
  | none => exact Code.preserves_pure _
  | some paddr =>
      refine Code.Preserves.bind ?_ fun _ =>
        Code.preserves_ite (Code.preserves_pure _) (Code.preserves_pure _)
      exact (Usize.preserves_add _ _).bind fun _ => Addr.preserves_new _

/-- The pages that share a byte with a range of physical memory. -/
theorem AddrRange.overlappedPages_eq_ok {σ : Type} {range : AddrRange uma} {pages : PageRange uma}
    {s t : σ} (hfit : range.base.value + range.size ≤ uma.stop)
    (h : (range.overlappedPages .small).run s = .ok pages t) :
    s = t ∧ pages.base.base.value = range.base.value - range.base.value % 4096 ∧
      pages.base.pageSize = .small ∧
      pages.len = Usize.divCeil (range.size + range.base.value % 4096) 4096 := by
  have hstop : uma.stop = 2 ^ 46 := rfl
  have husize : PageSize.small.usize = 4096 := rfl
  have hsub := Addr.addrSub_of_le (a := range.base)
    (b := ⟨range.base.value - range.base.value % 4096⟩) (Nat.sub_le _ _) (by omega) s
  have hres : range.base.value - (range.base.value - range.base.value % 4096)
      = range.base.value % 4096 := by
    have := Nat.mod_le range.base.value 4096
    omega
  simp only [hres] at hsub
  rw [AddrRange.overlappedPages, husize, Addr.alignFloor_uma,
    Code.bind_ok (Code.expect_some _ _ _), Code.bind_ok hsub,
    Isize.toUsize_natCast (by omega),
    Code.bind_ok (Usize.add_of_lt (by rw [Usize.modulus, Usize.bits]; omega) s)] at h
  obtain ⟨base, _, hnew, h⟩ := Code.bind_eq_ok.mp h
  obtain ⟨hbase, hsize, rfl⟩ := PageAddr.new_eq_ok hnew
  cases h
  exact ⟨rfl, by rw [hbase], hsize, rfl⟩

namespace PhysicalMemoryRecord

variable {r : PhysicalMemoryRecord} {m m₁ : MemblockSystem} {range : AddrRange uma}
  {uninit : ℕ → Frame}

/-- What `new` works with once the boot allocator is frozen. -/
structure Prepared (range : AddrRange uma) (r : PhysicalMemoryRecord) : Prop where
  base : r.base.base.value = range.base.value - range.base.value % 4096
  small : r.base.pageSize = .small
  len : r.frames.length = Usize.divCeil (range.size + range.base.value % 4096) 4096
  order : r.buddy.maxOrder = min (Usize.ceilLog2 r.frames.length) buddyMaxOrder
  width : r.frames.length ≤ r.buddy.map.width 0
  ok : r.buddy.Ok
  reserved : ∀ n, r.buddy.map.val n = Buddy.reserved

theorem prepare_eq_ok (hfit : m.managedRange.base.value + m.managedRange.size ≤ uma.stop)
    (hasc : m.freeBlocks.Ascending) (h : (prepare uninit).run m = .ok r m₁) :
    Prepared m.managedRange r ∧ m₁.managedRange = m.managedRange ∧ m₁.freeBlocks.Ascending := by
  have hstop : uma.stop = 2 ^ 46 := rfl
  have hsorted : MemblockSystem.Sorted m.managedRange m := ⟨rfl, hasc⟩
  rw [prepare, Code.get_bind] at h
  obtain ⟨pages, _, hpages, h⟩ := Code.bind_eq_ok.mp h
  obtain ⟨rfl, hbase, hsmall, hlen⟩ := AddrRange.overlappedPages_eq_ok hfit hpages
  obtain ⟨layout, _, hexp, h⟩ := Code.bind_eq_ok.mp h
  obtain ⟨-, rfl⟩ := Code.expect_eq_ok.mp hexp
  obtain ⟨o, m₂, halloc, h⟩ := Code.bind_eq_ok.mp h
  have hs₂ := preserves_bootAllocate _ _ _ _ hsorted halloc
  obtain ⟨_, _, hexp, h⟩ := Code.bind_eq_ok.mp h
  obtain ⟨-, rfl⟩ := Code.expect_eq_ok.mp hexp
  obtain ⟨o, m₃, hnew, h⟩ := Code.bind_eq_ok.mp h
  have hs₃ := BuddySystem.preserves_new preserves_bootAllocate _ _ _ _ hs₂ hnew
  obtain ⟨buddy, _, hexp, h⟩ := Code.bind_eq_ok.mp h
  obtain ⟨rfl, rfl⟩ := Code.expect_eq_ok.mp hexp
  obtain ⟨_, _, hfreeze, h⟩ := Code.bind_eq_ok.mp h
  have hs₄ := MemblockSystem.preserves_freeze _ _ _ hs₃ hfreeze
  cases h
  have hcnt : ((List.range pages.len).map uninit).length = pages.len := by simp
  obtain ⟨horder, ⟨hbig, -⟩ | ⟨-, hok, hwidth, hval⟩⟩ := BuddySystem.new_run hnew
  · -- that many pages do not fit the address space
    have hlt := Usize.divCeil_mul_lt (a := m.managedRange.size + m.managedRange.base.value % 4096)
      (b := 4096) (by decide)
    rw [hcnt, hlen] at hbig
    omega
  · exact ⟨⟨hbase, hsmall, hcnt.trans hlen, horder, hwidth, hok, hval⟩, hs₄.1, hs₄.2⟩

/-! ## Freeing the pieces -/

/-- The buddy system while `new` fills it: the nodes recorded free as a whole are those of
`Z`, and everything up to now was marked below `stop`. -/
structure Laid (r : PhysicalMemoryRecord) (Z : Node → Prop) (stop : ℕ) (t : BuddySystem) :
    Prop where
  order : t.maxOrder = r.buddy.maxOrder
  same : r.buddy.map.Same t.map
  settled : Settled Buddy.free t.map.maxDepth t.map.val
  marked : ∃ bs, t.Marked bs ∧ (∀ b ∈ bs, b.idx + 2 ^ b.order ≤ stop) ∧
    ∀ n, (∃ b ∈ bs, b.Marks n) ↔ Z n

variable {Z Z' : Node → Prop} {stop stop' : ℕ} {t : BuddySystem} {b : Memblock}

theorem Laid.mono (h : Laid r Z stop t) (hZ : ∀ n, Z n ↔ Z' n) (hle : stop ≤ stop') :
    Laid r Z' stop' t := by
  obtain ⟨bs, hm, hend, hmarks⟩ := h.marked
  exact ⟨h.order, h.same, h.settled, bs, hm, fun b hb => (hend b hb).trans hle,
    fun n => (hmarks n).trans (hZ n)⟩

/-- Nothing is marked in the buddy system `new` works with. -/
theorem Laid.start (hr : Prepared range r) : Laid r (fun _ => False) 0 r.buddy := by
  refine ⟨rfl, .refl hr.ok.map, fun n _ _ _ => ?_, [], .of_reserved hr.ok hr.reserved, by simp,
    by simp⟩
  rw [hr.reserved]
  exact bot_le

theorem Laid.frameRecorded_iff (h : Laid r Z stop t) (i : ℕ) :
    t.FrameRecorded i ↔ ∃ n, leaf i ≤ n ∧ Z n := by
  obtain ⟨bs, hm, -, hmarks⟩ := h.marked
  simp only [hm.frameRecorded_iff, hmarks]

/-- One forced free above everything that was marked before. -/
theorem Laid.freeForced (hr : Prepared range r) (h : Laid r Z stop t) {idx order : ℕ}
    (ho : order ≤ buddyMaxOrder) (hlen : idx + 2 ^ order ≤ r.frames.length) (hle : stop ≤ idx) :
    ∃ t', (BuddySystem.freeForced idx order).run t = .ok () t' ∧
      Laid r (fun n => Z n ∨ Block.Marks ⟨idx, order⟩ n) (idx + 2 ^ order) t' := by
  obtain ⟨bs, hm, hend, hmarks⟩ := h.marked
  have hlog : order ≤ Usize.ceilLog2 r.frames.length := Usize.le_ceilLog2 (by omega)
  have hord : order ≤ t.maxOrder := by rw [h.order, hr.order]; exact le_min hlog ho
  have hwidth : idx + 2 ^ order ≤ t.map.width 0 := by
    rw [h.same.width]; exact hlen.trans hr.width
  obtain ⟨g, hg, hsame, hm'⟩ := hm.freeForced (b := ⟨idx, order⟩) hord hwidth
    fun c hc => (hend c hc).trans hle
  obtain ⟨g', hg', -, hval⟩ := BuddySystem.freeForced_run hm.ok hord hwidth
  obtain rfl : g = g' := congrArg BuddySystem.map (EStateM.Result.ok.inj (hg.symm.trans hg')).2
  refine ⟨_, hg, h.order, h.same.trans hr.ok.map hsame, ?_, _, hm', ?_, fun n => ?_⟩
  · have hdepth : order ≤ t.map.maxDepth := hm.ok.order ▸ hord
    change Settled Buddy.free g.maxDepth g.val
    rw [hsame.maxDepth, hval]
    refine h.settled.fixup hm.bounded (fun a => ?_) (Nat.add_sub_of_le hdepth)
    rw [BuddySystem.fillBlock]
    split
    · exact .inl rfl
    · exact .inr rfl
  · rw [List.forall_mem_cons]
    exact ⟨Nat.le_refl _, fun c hc => (hend c hc).trans (hle.trans (Nat.le_add_right _ _))⟩
  · rw [List.exists_mem_cons_iff, hmarks, or_comm]

/-- A piece that starts at page `i`. -/
theorem freePiece_run {base : PageAddr uma} (hbase : 4096 ∣ base.base.value) {i q : ℕ}
    {typ : MemTyp} (hfit : base.base.value + 4096 * i < 2 ^ 63) (hq : q ≤ buddyMaxOrder) :
    (freePiece base ⟨⟨base.base.value + 4096 * i⟩, 2 ^ (12 + q), typ⟩).run t
      = (BuddySystem.freeForced i q).run t := by
  have hal : (⟨base.base.value + 4096 * i⟩ : Addr uma).isAlignedTo frameSize = true := by
    obtain ⟨k, hk⟩ := hbase
    rw [Addr.isAlignedTo, frameSize_eq, beq_iff_eq, hk]
    simp only
    omega
  have hsub := Addr.addrSub_of_le (S := uma) (a := ⟨base.base.value + 4096 * i⟩) (b := base.base)
    (Nat.le_add_right _ _) hfit t
  simp only [Nat.add_sub_cancel_left] at hsub
  have hidx : Isize.toUsize ((4096 * i : ℕ) : ℤ) / frameSize = i := by
    rw [Isize.toUsize_natCast (by omega), frameSize_eq]
    omega
  have hbits : 12 + q ≤ Usize.bits := by simp only [buddyMaxOrder, Usize.bits] at *; omega
  rw [freePiece, Code.bind_ok (Code.assert_of hal _ t), Code.bind_ok hsub]
  simp only [hidx, Usize.trailingZeros_two_pow hbits]
  rw [frameOrder_eq, Code.bind_ok (Usize.sub_of_le (Nat.le_add_right _ _) t),
    Nat.add_sub_cancel_left]

/-! ## Freeing the blocks -/

/-- The number of pages `aligned_split` makes of a block. -/
def frameCnt (b : Memblock) : ℕ := b.size / frameSize

/-- The frame the first piece of a block starts at. -/
def firstFrame (r : PhysicalMemoryRecord) (b : Memblock) : ℕ :=
  (Usize.roundUp b.base.value frameSize - r.base.base.value) / frameSize

/-- The first piece of a block. -/
def firstPiece (r : PhysicalMemoryRecord) (b : Memblock) : Block :=
  ⟨r.firstFrame b, min (frameCnt b).log2 buddyMaxOrder⟩

/-- The frames that are recorded free for a block. -/
def Frees (r : PhysicalMemoryRecord) (b : Memblock) (i : ℕ) : Prop :=
  0 < frameCnt b ∧ (r.firstPiece b).floor ≤ i ∧ i < r.firstFrame b + frameCnt b

/-- The block lies inside the range. -/
def Inside (range : AddrRange uma) (b : Memblock) : Prop :=
  range.base.value ≤ b.base.value ∧ b.base.value + b.size ≤ range.base.value + range.size

theorem Prepared.dvd_base (hr : Prepared range r) : 4096 ∣ r.base.base.value := by
  rw [hr.base]; exact Nat.dvd_sub_mod _

/-- The frames reach to the end of the range. -/
theorem Prepared.le_end (hr : Prepared range r) :
    range.base.value + range.size ≤ r.base.base.value + 4096 * r.frames.length := by
  have hle := Usize.le_divCeil_mul (a := range.size + range.base.value % 4096) (b := 4096)
    (by decide)
  rw [← hr.len] at hle
  have := hr.base
  omega

theorem firstFrame_eq (hr : Prepared range r) (hb : Inside range b) :
    Usize.roundUp b.base.value 4096 = r.base.base.value + 4096 * r.firstFrame b := by
  obtain ⟨k, hk⟩ := hr.dvd_base
  obtain ⟨c, hc⟩ := Usize.dvd_roundUp (a := b.base.value) (b := 4096) (by decide)
  have hle := Usize.le_roundUp b.base.value 4096
  have hbase := hr.base
  have := hb.1
  rw [firstFrame, frameSize_eq]
  omega

/-- Even where the pieces run past the end of the block, the page they run into
has a byte of the block. -/
theorem lastFrame_lt (hr : Prepared range r) (hb : Inside range b) :
    r.base.base.value + 4096 * (r.firstFrame b + frameCnt b) < b.base.value + b.size + 4096 := by
  have hup := firstFrame_eq hr hb
  have hlt := Usize.roundUp_lt (a := b.base.value) (b := 4096) (by decide)
  have hmul : 4096 * frameCnt b ≤ b.size := by
    rw [frameCnt, frameSize_eq]; exact Nat.mul_div_le _ _
  omega

theorem lastFrame_le (hr : Prepared range r) (hb : Inside range b) :
    r.firstFrame b + frameCnt b ≤ r.frames.length := by
  have hlt := lastFrame_lt hr hb
  have hend := hr.le_end
  have := hb.2
  omega

theorem frameCnt_pos : 0 < frameCnt b ↔ frameSize ≤ b.size :=
  Nat.div_pos_iff.trans (and_iff_right (by decide))

/-- The frames `new` frees for a block. -/
def stretch (r : PhysicalMemoryRecord) (b : Memblock) : Stretch :=
  ⟨r.firstFrame b, frameCnt b, min (frameCnt b).log2 buddyMaxOrder⟩

theorem exists_stretch_marks_iff {i : ℕ} :
    (∃ n, leaf i ≤ n ∧ (r.stretch b).Marks n) ↔ r.Frees b i := by
  refine Stretch.exists_marks_iff fun hpos => ?_
  have hle : (r.stretch b).order ≤ (frameCnt b).log2 := min_le_left _ _
  exact (Nat.pow_le_pow_right (by decide) hle).trans (Nat.log2_self_le hpos.ne')

/-- In the middle of `b`, with the pieces below frame `p` freed: those of the greedy split, and
what is marked of them. -/
structure LaidUpTo (r : PhysicalMemoryRecord) (Z : Node → Prop) (stop : ℕ) (b : Memblock) (p : ℕ)
    (t : BuddySystem) : Prop where
  packed : AlignedSplit.Packed (frameCnt b) (r.stretch b).order p
  laid : Laid r (fun n => Z n ∨ Stretch.Marks ⟨r.firstFrame b, p, (r.stretch b).order⟩ n)
    (if 0 < p then r.firstFrame b + p else stop) t

theorem Laid.upTo_zero (h : Laid r Z stop t) : LaidUpTo r Z stop b 0 t where
  packed := .zero _ _
  laid := h.mono (fun _ => (or_iff_left fun hm => Nat.lt_irrefl 0 hm.cnt_pos).symm) (by simp)

/-- The next piece. -/
theorem LaidUpTo.step (hr : Prepared range r) {p q : ℕ} (h : LaidUpTo r Z stop b p t)
    (hstop : stop ≤ r.firstFrame b) (hlast : r.firstFrame b + frameCnt b ≤ r.frames.length)
    (hpiece : AlignedSplit.Piece (frameCnt b) buddyMaxOrder p q) :
    ∃ t', (BuddySystem.freeForced (r.firstFrame b + p) q).run t = .ok () t' ∧
      LaidUpTo r Z stop b (p + 2 ^ q) t' := by
  have hfits := hpiece.fits
  have hqpos := Nat.two_pow_pos q
  have hq : q ≤ (r.stretch b).order :=
    le_min ((Nat.le_log2 (by omega)).mpr (by omega)) hpiece.le
  have hle : (if 0 < p then r.firstFrame b + p else stop) ≤ r.firstFrame b + p := by
    split
    · exact Nat.le_refl _
    · exact hstop.trans (Nat.le_add_right _ _)
  obtain ⟨t', hrun, hnext⟩ := h.laid.freeForced hr hpiece.le (by omega) hle
  refine ⟨t', hrun, h.packed.step hpiece (min_le_right _ _), hnext.mono (fun n => ?_) ?_⟩
  · rw [or_assoc, Stretch.marks_add hq hpiece.dvd fun l hl hle =>
      h.packed.div_eq hpiece hl hle]
  · rw [if_pos (by omega), Nat.add_assoc]

/-- One block: its pieces are freed one after the other. -/
theorem Laid.freeBlock (hr : Prepared range r)
    (hfit : range.base.value + range.size ≤ uma.stop) (hb : Inside range b)
    (h : Laid r Z stop t) (hstop : 0 < frameCnt b → stop ≤ r.firstFrame b) :
    ∃ t', (PhysicalMemoryRecord.freeBlock r.base b).run t = .ok () t' ∧
      Laid r (fun n => Z n ∨ (r.stretch b).Marks n)
        (if 0 < frameCnt b then r.firstFrame b + frameCnt b else stop) t' := by
  have hstopUma : uma.stop = 2 ^ 46 := rfl
  have hup := firstFrame_eq hr hb
  have hlast := lastFrame_le hr hb
  have hlt := lastFrame_lt hr hb
  have hend := hb.2
  have hpieces : ∃ t', (PhysicalMemoryRecord.freeBlock r.base b).run t = .ok () t' ∧
      LaidUpTo r Z stop b (frameCnt b) t' := by
    refine Memblock.forEach_alignedSplit (w := 12) (hend.trans hfit) (by decide) (by decide)
      h.upTo_zero fun p q s hp hpiece hlaid => ?_
    change AlignedSplit.Piece (frameCnt b) buddyMaxOrder p q at hpiece
    change p < frameCnt b at hp
    have hfits := hpiece.fits
    have haddr : Usize.roundUp b.base.value (2 ^ 12) + 2 ^ 12 * p
        = r.base.base.value + 4096 * (r.firstFrame b + p) := by
      change Usize.roundUp b.base.value 4096 + 4096 * p = _
      omega
    obtain ⟨t', hrun, hnext⟩ := hlaid.step hr (hstop (by omega)) hlast hpiece
    refine ⟨t', ?_, hnext⟩
    rw [haddr, freePiece_run hr.dvd_base (by omega) hpiece.le]
    exact hrun
  obtain ⟨t', hrun, hlaid⟩ := hpieces
  exact ⟨t', hrun, hlaid.laid⟩

/-- The blocks of at least a page follow each other. -/
def Following (a b : Memblock) : Prop :=
  0 < frameCnt a → 0 < frameCnt b → a.base.value + a.size ≤ b.base.value

/-- The frames of a block end before those of the next one begin. -/
theorem Following.firstFrame_le (hr : Prepared range r) {c : Memblock} (h : Following b c)
    (hb : Inside range b) (hc : Inside range c) (hbpos : 0 < frameCnt b) (hcpos : 0 < frameCnt c) :
    r.firstFrame b + frameCnt b ≤ r.firstFrame c := by
  have hle := h hbpos hcpos
  have hlt := lastFrame_lt hr hb
  have hup := firstFrame_eq hr hc
  have hge := Usize.le_roundUp c.base.value 4096
  omega

/-- All the blocks. -/
theorem Laid.populate (hr : Prepared range r)
    (hfit : range.base.value + range.size ≤ uma.stop) (blocks : Memblocks) :
    ∀ {Z : Node → Prop} {stop : ℕ} {t : BuddySystem}, (∀ b ∈ blocks, Inside range b) →
    blocks.Pairwise Following → Laid r Z stop t →
    (∀ b ∈ blocks, 0 < frameCnt b → stop ≤ r.firstFrame b) →
    ∃ t' stop', (PhysicalMemoryRecord.populate r.base blocks).run t = .ok () t' ∧
      Laid r (fun n => Z n ∨ ∃ b ∈ blocks, (r.stretch b).Marks n) stop' t' := by
  induction blocks with
  | nil =>
      intro Z stop t _ _ h _
      exact ⟨t, stop, rfl, h.mono (fun n => by simp) (Nat.le_refl _)⟩
  | cons b blocks ih =>
      intro Z stop t hin hpair h hstop
      rw [List.forall_mem_cons] at hin hstop
      obtain ⟨hfollow, hpair⟩ := List.pairwise_cons.mp hpair
      obtain ⟨t₁, hrun, h₁⟩ := h.freeBlock hr hfit hin.1 hstop.1
      have hnext : ∀ c ∈ blocks, 0 < frameCnt c →
          (if 0 < frameCnt b then r.firstFrame b + frameCnt b else stop) ≤ r.firstFrame c := by
        intro c hc hpos
        split
        · rename_i hb
          exact (hfollow c hc).firstFrame_le hr hin.1 (hin.2 c hc) hb hpos
        · exact hstop.2 c hc hpos
      obtain ⟨t', stop', hrest, h'⟩ := ih hin.2 hpair h₁ hnext
      refine ⟨t', stop', ?_, h'.mono (fun n => ?_) (Nat.le_refl _)⟩
      · rw [PhysicalMemoryRecord.populate]
        exact (Code.bind_ok hrun).trans hrest
      · rw [List.exists_mem_cons_iff, or_assoc]

/-! ## Is the hand-over exact? -/

/-- Frame `i` lies entirely inside the block. -/
def HoldsFrame (r : PhysicalMemoryRecord) (b : Memblock) (i : ℕ) : Prop :=
  b.base.value ≤ r.addrOf i ∧ r.addrOf i + frameSize ≤ b.base.value + b.size

/-- Free blocks as a frozen boot allocator should have them. -/
structure Frozen (range : AddrRange uma) (blocks : Memblocks) : Prop where
  inside : ∀ b ∈ blocks, Inside range b
  disjoint : ∀ a ∈ blocks, ∀ b ∈ blocks, a ≠ b → ∀ x, a.Contains x → ¬ b.Contains x

/-- The pieces of `b` end inside it, and what its first piece would begin at if it
were aligned among the frames is free as well. -/
structure Clean (r : PhysicalMemoryRecord) (blocks : Memblocks) (b : Memblock) : Prop where
  stop : Usize.roundUp b.base.value frameSize + frameSize * frameCnt b ≤ b.base.value + b.size
  start : ∀ i, (r.firstPiece b).floor ≤ i → i < r.firstFrame b → ∃ c ∈ blocks, r.HoldsFrame c i

theorem Frozen.following {blocks : Memblocks} (h : Frozen range blocks) (hasc : blocks.Ascending) :
    blocks.Pairwise Following := by
  refine hasc.imp_of_mem fun {a b} ha hb hlt hposa hposb => ?_
  by_contra hgt
  have hne : a ≠ b := fun he => by rw [he] at hlt; exact Nat.lt_irrefl _ hlt
  have hsize : 0 < b.size := by
    by_contra h0
    rw [frameCnt, Nat.eq_zero_of_not_pos h0, Nat.zero_div] at hposb
    exact Nat.lt_irrefl _ hposb
  exact h.disjoint a ha b hb hne b.base.value ⟨hlt.le, not_le.mp hgt⟩
    ⟨Nat.le_refl _, Nat.lt_add_of_pos_right hsize⟩

/-- A frame inside a block is one of those its pieces begin at. -/
theorem HoldsFrame.frees (hr : Prepared range r) (hb : Inside range b) {i : ℕ}
    (h : r.HoldsFrame b i) : r.Frees b i ∧ r.firstFrame b ≤ i := by
  obtain ⟨h1, h2⟩ := h
  have hup := firstFrame_eq hr hb
  obtain ⟨k, hk⟩ := hr.dvd_base
  have hlt := Usize.roundUp_lt (a := b.base.value) (b := 4096) (by decide)
  have hge := Usize.le_roundUp b.base.value 4096
  have hfloor := (r.firstPiece b).floor_le
  rw [addrOf, frameSize_eq] at h1 h2
  have hfirst : r.firstFrame b ≤ i := by omega
  have hcnt : i < r.firstFrame b + frameCnt b := by
    have hdiv : i + 1 - r.firstFrame b ≤ b.size / 4096 := by
      rw [Nat.le_div_iff_mul_le (by decide)]
      omega
    rw [frameCnt, frameSize_eq]
    omega
  refine ⟨⟨by omega, hfloor.trans hfirst, hcnt⟩, hfirst⟩

/-- What is recorded free is what is free exactly when every block is clean. -/
theorem frees_exact_iff (hr : Prepared range r) {blocks : Memblocks} (h : Frozen range blocks) :
    (∀ i, (∃ b ∈ blocks, r.Frees b i) ↔ ∃ b ∈ blocks, r.HoldsFrame b i) ↔
      ∀ b ∈ blocks, frameSize ≤ b.size → Clean r blocks b := by
  constructor
  · intro hexact b hb hsize
    have hpos := frameCnt_pos.mpr hsize
    have hup := firstFrame_eq hr (h.inside b hb)
    have hlt := lastFrame_lt hr (h.inside b hb)
    have hge := Usize.le_roundUp b.base.value 4096
    refine ⟨?_, fun i hfloor hi => (hexact i).mp ⟨b, hb, hpos, hfloor, by omega⟩⟩
    -- the last page of the pieces lies in a free block, and has a byte of `b`
    obtain ⟨c, hc, hlow, hhigh⟩ := (hexact (r.firstFrame b + frameCnt b - 1)).mp
      ⟨b, hb, hpos, (r.firstPiece b).floor_le.trans (by change r.firstFrame b ≤ _; omega), by omega⟩
    rw [addrOf, frameSize_eq] at hlow hhigh
    have hbc : b = c := by
      by_contra hne
      refine h.disjoint b hb c hc hne
        (r.base.base.value + (r.firstFrame b + frameCnt b - 1) * 4096) ⟨?_, ?_⟩ ⟨hlow, ?_⟩
      · omega
      · omega
      · omega
    subst hbc
    rw [frameSize_eq]
    omega
  · intro hclean i
    constructor
    · rintro ⟨b, hb, hpos, hfloor, hlast⟩
      have hb' := hclean b hb (frameCnt_pos.mp hpos)
      by_cases hi : i < r.firstFrame b
      · exact hb'.start i hfloor hi
      · have hup := firstFrame_eq hr (h.inside b hb)
        have hge := Usize.le_roundUp b.base.value 4096
        have hstop := hb'.stop
        rw [frameSize_eq] at hstop
        refine ⟨b, hb, ?_, ?_⟩
        · rw [addrOf, frameSize_eq]; omega
        · rw [addrOf, frameSize_eq]; omega
    · rintro ⟨b, hb, hold⟩
      exact ⟨b, hb, (hold.frees hr (h.inside b hb)).1⟩

/-- `new` never panics in its loop over the free blocks, and marks the stretch of each. -/
theorem new_laid (hfit : m.managedRange.base.value + m.managedRange.size ≤ uma.stop)
    (hasc : m.freeBlocks.Ascending) (hprep : (prepare uninit).run m = .ok r m₁)
    (hfree : Frozen m.managedRange m₁.freeBlocks) :
    ∃ buddy stop, Prepared m.managedRange r ∧ (new uninit).run m = .ok { r with buddy } m₁ ∧
      Laid r (fun n => ∃ b ∈ m₁.freeBlocks, (r.stretch b).Marks n) stop buddy := by
  obtain ⟨hr, -, hasc₁⟩ := prepare_eq_ok hfit hasc hprep
  obtain ⟨buddy, stop, hrun, hlaid⟩ := (Laid.start hr).populate hr hfit m₁.freeBlocks
    hfree.inside (hfree.following hasc₁) fun _ _ _ => Nat.zero_le _
  refine ⟨buddy, stop, hr, ?_, hlaid.mono (fun n => or_iff_right False.elim) (Nat.le_refl stop)⟩
  rw [new, Code.bind_ok hprep, Code.get_bind, Code.bind_ok (Code.locally_ok hrun)]
  rfl

/-- `new` never panics in its loop over the free blocks, and it records exactly the
frames inside free blocks as free when every block of at least a page is clean. -/
theorem hand_over_exact_iff (hfit : m.managedRange.base.value + m.managedRange.size ≤ uma.stop)
    (hasc : m.freeBlocks.Ascending) (hprep : (prepare uninit).run m = .ok r m₁)
    (hfree : Frozen m.managedRange m₁.freeBlocks) :
    ∃ buddy, (new uninit).run m = .ok { r with buddy } m₁ ∧
      ((∀ i, buddy.FrameRecorded i ↔ ∃ b ∈ m₁.freeBlocks, r.HoldsFrame b i) ↔
        ∀ b ∈ m₁.freeBlocks, frameSize ≤ b.size → Clean r m₁.freeBlocks b) := by
  obtain ⟨buddy, stop, hr, hnew, hlaid⟩ := new_laid hfit hasc hprep hfree
  refine ⟨buddy, hnew, ?_⟩
  rw [← frees_exact_iff hr hfree]
  have hiff : ∀ i, buddy.FrameRecorded i ↔ ∃ b ∈ m₁.freeBlocks, r.Frees b i := fun i => by
    simp only [hlaid.frameRecorded_iff, ← exists_stretch_marks_iff]
    exact ⟨fun ⟨n, hi, b, hb, hm⟩ => ⟨b, hb, n, hi, hm⟩,
      fun ⟨b, hb, n, hi, hm⟩ => ⟨n, hi, b, hb, hm⟩⟩
  simp only [hiff]

/-- Four frames at 2 MiB when the boot memory is handed over, by the bytes of the forest.  Both
records lie at the start of the window, one behind the other. -/
def bootFrames (bytes : List ℕ) : PhysicalMemoryRecord :=
  { fourFrames [0, 0, 0, 0] bytes with
    framesPtr := physicalRemap.start
    buddy := ⟨⟨bytes.map Buddy.mk, physicalRemap.start + 8, 3, 1⟩, 2⟩ }

/-- Two areas around a hole of a page.  The records are taken from the upper one, and the
lower one is handed over as it is. -/
theorem hand_over_exact_twoAreas : ∃ m m₁ r buddy b b',
    (MemblockSystem.init ⟨0x200000⟩ [⟨0x200000, 0x2000, .available⟩,
      ⟨0x203000, 0x1000, .available⟩]).run b = .ok m b' ∧
    (prepare fun _ => ⟨0⟩).run m = .ok r m₁ ∧ Frozen m.managedRange m₁.freeBlocks ∧
    (new fun _ => ⟨0⟩).run m = .ok { r with buddy } m₁ ∧
    ∀ i, buddy.FrameRecorded i ↔ ∃ b ∈ m₁.freeBlocks, r.HoldsFrame b i := by
  have hinit : (MemblockSystem.init ⟨0x200000⟩ [⟨0x200000, 0x2000, .available⟩,
      ⟨0x203000, 0x1000, .available⟩]).run ⟨[], ⟨0⟩, ⟨0⟩⟩ = .ok
      ⟨[⟨⟨0x200000⟩, 0x2000, .free⟩], [], some ⟨⟨0x203000⟩, 0x1000, .free⟩, 0,
        ⟨⟨0x200000⟩, 0x4000⟩, false⟩
      ⟨[⟨⟨0x200000⟩, 0x2000, .free⟩, ⟨⟨0x203000⟩, 0x1000, .free⟩], ⟨0x200000⟩, ⟨0x204000⟩⟩ := by
    decide +kernel
  have hprep : (prepare fun _ => ⟨0⟩).run
      ⟨[⟨⟨0x200000⟩, 0x2000, .free⟩], [], some ⟨⟨0x203000⟩, 0x1000, .free⟩, 0,
        ⟨⟨0x200000⟩, 0x4000⟩, false⟩
      = .ok (bootFrames [0, 0, 0, 0, 0, 0, 0, 0])
        ⟨[⟨⟨0x200000⟩, 0x2000, .free⟩, ⟨⟨0x203010⟩, 0xff0, .free⟩],
          [⟨⟨0x203000⟩, 16, .reserved⟩], none, 16, ⟨⟨0x200000⟩, 0x4000⟩, false⟩ := by
    decide +kernel
  have hfree : Frozen ⟨⟨0x200000⟩, 0x4000⟩
      [⟨⟨0x200000⟩, 0x2000, .free⟩, ⟨⟨0x203010⟩, 0xff0, .free⟩] := by
    refine ⟨by simp [Inside], ?_⟩
    simp only [List.forall_mem_cons, List.not_mem_nil, Memblock.Contains]
    refine ⟨⟨fun h => absurd rfl h, fun _ x => by omega, fun _ => False.elim⟩,
      ⟨fun _ x => by omega, fun h => absurd rfl h, fun _ => False.elim⟩, fun _ => False.elim⟩
  obtain ⟨buddy, hnew, hiff⟩ := hand_over_exact_iff (by decide) (by decide) hprep hfree
  refine ⟨_, _, _, buddy, _, _, hinit, hprep, hfree, hnew, hiff.mpr ?_⟩
  simp only [List.forall_mem_cons, List.not_mem_nil]
  exact ⟨fun _ => ⟨by decide, fun i _ hi => absurd hi (Nat.not_lt_zero i)⟩,
    fun hsize => absurd hsize (by decide), fun _ => False.elim⟩

/-- One area: its first bytes are taken for the records, and the first page is recorded free
with the second one, since the pieces begin at an odd frame. -/
theorem hand_over_frees_records : ∃ m m₁ r buddy b b',
    (MemblockSystem.init ⟨0x200000⟩ [⟨0x200000, 0x4000, .available⟩]).run b = .ok m b' ∧
    m.managedRange.base.value + m.managedRange.size ≤ uma.stop ∧ m.freeBlocks.Ascending ∧
    (prepare fun _ => ⟨0⟩).run m = .ok r m₁ ∧ Frozen m.managedRange m₁.freeBlocks ∧
    (new fun _ => ⟨0⟩).run m = .ok { r with buddy } m₁ ∧
    buddy.FrameRecorded 0 ∧ ¬ ∃ b ∈ m₁.freeBlocks, r.HoldsFrame b 0 := by
  have hinit : (MemblockSystem.init ⟨0x200000⟩ [⟨0x200000, 0x4000, .available⟩]).run
      ⟨[], ⟨0⟩, ⟨0⟩⟩ = .ok
      ⟨[], [], some ⟨⟨0x200000⟩, 0x4000, .free⟩, 0, ⟨⟨0x200000⟩, 0x4000⟩, false⟩
      ⟨[⟨⟨0x200000⟩, 0x4000, .free⟩], ⟨0x200000⟩, ⟨0x204000⟩⟩ := by
    decide +kernel
  have hprep : (prepare fun _ => ⟨0⟩).run
      ⟨[], [], some ⟨⟨0x200000⟩, 0x4000, .free⟩, 0, ⟨⟨0x200000⟩, 0x4000⟩, false⟩
      = .ok (bootFrames [0, 0, 0, 0, 0, 0, 0, 0])
        ⟨[⟨⟨0x200010⟩, 0x3ff0, .free⟩], [⟨⟨0x200000⟩, 16, .reserved⟩], none, 16,
          ⟨⟨0x200000⟩, 0x4000⟩, false⟩ := by
    decide +kernel
  have hnew : (new fun _ => ⟨0⟩).run
      ⟨[], [], some ⟨⟨0x200000⟩, 0x4000, .free⟩, 0, ⟨⟨0x200000⟩, 0x4000⟩, false⟩
      = .ok (bootFrames [2, 2, 1, 0, 1, 1, 1, 0])
        ⟨[⟨⟨0x200010⟩, 0x3ff0, .free⟩], [⟨⟨0x200000⟩, 16, .reserved⟩], none, 16,
          ⟨⟨0x200000⟩, 0x4000⟩, false⟩ := by
    decide +kernel
  refine ⟨_, _, _, _, _, _, hinit, by decide, by decide, hprep, ⟨by simp [Inside], by simp⟩, hnew,
    ⟨⟨1, 0⟩, by decide, ⟨by decide, by decide⟩, by decide, by simp⟩, ?_⟩
  simp [HoldsFrame, addrOf, bootFrames, fourFrames]

end PhysicalMemoryRecord

end Koe
