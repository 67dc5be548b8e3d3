/-
# `KoeOs.Phy.RecordRun` — whole runs of the page allocator

A run goes on with `allocate_pages` and with `deallocate_pages` at the base of an
allocation that is out.  It carries the blocks that are out, and those that have
come back.

What a run needs of the buddy system is `BuddySystem.Service`: an invariant that
`reserve` and `free` keep, whatever it says about the forest.  `Tracked` is what
follows for the record.  A forest that was populated by aligned blocks has such an
invariant (`Ready.service`), and so has one that was filled at any index
(`Phy.Takeover`).

The table of orders is only ever right at the first frame of a block:

    b is out                     frames[b.idx] is the order of b
    b came back, and no block    frames[b.idx] is 0
    that starts there is out

The first line makes `deallocate_pages` free the block that was taken; the second
makes a second `deallocate_pages` ask for a single page, which is recorded free.

A block is aligned relative to the first frame, and a page is to be aligned in memory.
For pages larger than a frame the two agree only if the first frame is itself at a
multiple of their size.
-/
import KoeOs.Phy.Record
import KoeOs.Phy.BuddyRun

namespace Koe

open Node

namespace PhysicalMemoryRecord

variable {r r' r₀ : PhysicalMemoryRecord} {bs live freed : List Block} {b : Block}
  {pages : PageRange uma} {cnt : ℕ} {pageSize : PageSize}

@[simp] theorem frameSize_eq : frameSize = 4096 := rfl

@[simp] theorem frameOrder_eq : frameOrder = 12 := rfl

/-- The frames are small pages inside the physical address space. -/
structure Placed (r : PhysicalMemoryRecord) : Prop where
  small : r.base.pageSize = .small
  inside : r.base.base.value + r.frames.length * frameSize ≤ uma.stop

/-- The first address of frame `i`. -/
def addrOf (r : PhysicalMemoryRecord) (i : ℕ) : ℕ := r.base.base.value + i * frameSize

/-- The frames of the allocation that asked for `cnt` pages and got `pages`. -/
def blockOf (r : PhysicalMemoryRecord) (pages : PageRange uma) (cnt : ℕ) : Block where
  idx := (pages.base.base.value - r.base.base.value) / frameSize
  order := Usize.ceilLog2 (cnt * (pages.base.pageSize.usize / frameSize))

/-! ## One call -/

theorem frameIdx_run (hp : r.Placed) {i : ℕ} (hi : i < r.frames.length) {addr : Addr uma}
    (ha : addr.value = r.addrOf i) : (frameIdx addr).run r = .ok (some i) r := by
  have hin := hp.inside
  have hstop : uma.stop = 2 ^ 46 := rfl
  rw [addrOf] at ha
  simp only [frameSize_eq] at ha hin
  have hsub := Addr.addrSub_of_le (a := addr) (b := r.base.base) (by omega) (by omega) r
  have hoff : addr.value - r.base.base.value = i * 4096 := by omega
  have hidx : (i * 4096) >>> frameOrder = i := by
    rw [Nat.shiftRight_eq_div_pow, frameOrder_eq]
    omega
  rw [frameIdx, Code.get_bind, Code.bind_ok hsub, hoff, Isize.tryToUsize_natCast]
  simp only [hidx, if_pos hi]
  rfl

theorem getOrder_run {i order : ℕ} (h : r.frames[i]? = some ⟨order⟩) :
    (getOrder i).run r = .ok order r := by
  rw [getOrder, Code.get_bind, h]; rfl

theorem setOrder_run {i : ℕ} (hi : i < r.frames.length) (order : ℕ) :
    (setOrder i order).run r = .ok () { r with frames := r.frames.set i ⟨order⟩ } := by
  rw [setOrder, Code.get_bind, if_pos hi]; rfl

theorem deallocatePages_ok (hp : r.Placed) {i order : ℕ} (h : r.frames[i]? = some ⟨order⟩)
    (ha : pages.base.base.value = r.addrOf i) {buddy : BuddySystem}
    (hfree : (BuddySystem.free i order).run r.buddy = .ok () buddy) :
    (deallocatePages pages).run r = .ok () { r with frames := r.frames.set i ⟨0⟩, buddy } := by
  have hi := (List.getElem?_eq_some_iff.mp h).1
  have hbuddy : (onBuddy (BuddySystem.free i order)).run r = .ok () { r with buddy } :=
    Code.zoom_ok hfree
  rw [deallocatePages, Code.bind_ok (frameIdx_run hp hi ha), Code.bind_ok (Code.expect_some i _ r),
    Code.bind_ok (getOrder_run h), Code.bind_ok hbuddy]
  exact setOrder_run (r := { r with buddy }) hi 0

theorem deallocatePages_error (hp : r.Placed) {i order : ℕ} (h : r.frames[i]? = some ⟨order⟩)
    (ha : pages.base.base.value = r.addrOf i) {p : Panic}
    (hfree : (BuddySystem.free i order).run r.buddy = .error p r.buddy) :
    (deallocatePages pages).run r = .error p r := by
  have hi := (List.getElem?_eq_some_iff.mp h).1
  have hbuddy : (onBuddy (BuddySystem.free i order)).run r = .error p r :=
    Code.zoom_error hfree
  rw [deallocatePages, Code.bind_ok (frameIdx_run hp hi ha), Code.bind_ok (Code.expect_some i _ r),
    Code.bind_ok (getOrder_run h), Code.bind_error hbuddy]

/-- The last part of `allocatePages`: block `i` was reserved for `frameCnt` frames. -/
def grant (frameCnt : ℕ) (pageSize : PageSize) (i : ℕ) :
    Code PhysicalMemoryRecord (Option (PageRange uma)) := do
  setOrder i (Usize.ceilLog2 frameCnt)
  let base ← Code.expect (← (← get).base.checkedPageAdd i)
    "index returned by buddy system should be correctly sized"
  let base ← PageAddr.new base.base pageSize
  return some ⟨base, Usize.powerOfTwoAbove frameCnt >>> (pageSize.order - frameOrder)⟩

/-- `allocatePages` once the frames are counted. -/
def request (frameCnt : ℕ) (pageSize : PageSize) :
    Code PhysicalMemoryRecord (Option (PageRange uma)) := do
  if (← get).buddy.maxOrder < Usize.ceilLog2 frameCnt then return none
  match ← onBuddy (BuddySystem.reserve (Usize.ceilLog2 frameCnt)) with
  | none => return none
  | some i => grant frameCnt pageSize i

theorem allocatePages_eq {frameCnt : ℕ} (hcnt : cnt * (pageSize.usize / frameSize) = frameCnt)
    (hle : frameCnt ≤ 2 ^ 63) :
    (allocatePages cnt pageSize).run r = (request frameCnt pageSize).run r := by
  have hmod : cnt * (pageSize.usize / frameSize) < Usize.modulus := by
    simp only [hcnt, Usize.modulus, Usize.bits]; omega
  unfold allocatePages
  rw [Code.bind_ok (Usize.mul_of_lt hmod r), hcnt, Code.bind_ok (Usize.nextPowerOfTwo_of_le hle r),
    Code.bind_ok (Usize.ilog2_of_pos (Usize.powerOfTwoAbove_pos _) r), Usize.log2_powerOfTwoAbove]
  rfl

theorem request_of_allocatePages {res : Option (PageRange uma)}
    (h : (allocatePages cnt pageSize).run r = .ok res r') :
    (request (cnt * (pageSize.usize / frameSize)) pageSize).run r = .ok res r' := by
  have hrun := h
  unfold allocatePages at h
  obtain ⟨frameCnt, _, hmul, h⟩ := Code.bind_eq_ok.mp h
  obtain ⟨-, rfl, rfl⟩ := Usize.mul_eq_ok.mp hmul
  obtain ⟨allocateCnt, _, hpow, h⟩ := Code.bind_eq_ok.mp h
  rw [← allocatePages_eq rfl (Usize.nextPowerOfTwo_eq_ok.mp hpow).1]
  exact hrun

/-- What `request` did: the order was too large, or the buddy system had no block, or the block
it had was granted. -/
theorem request_cases {frameCnt : ℕ} {res : Option (PageRange uma)}
    (h : (request frameCnt pageSize).run r = .ok res r') :
    (res = none ∧ r' = r) ∨ ∃ o buddy,
      (BuddySystem.reserve (Usize.ceilLog2 frameCnt)).run r.buddy = .ok o buddy ∧
      ((o = none ∧ res = none ∧ r' = { r with buddy }) ∨
        ∃ i, o = some i ∧ (grant frameCnt pageSize i).run { r with buddy } = .ok res r') := by
  rw [request, Code.get_bind] at h
  split at h
  · cases h
    exact .inl ⟨rfl, rfl⟩
  · obtain ⟨o, r₁, hres, h⟩ := Code.bind_eq_ok.mp h
    obtain ⟨buddy, hbuddy, rfl⟩ := Code.zoom_eq_ok.mp hres
    refine .inr ⟨o, buddy, hbuddy, ?_⟩
    cases o with
    | none =>
        cases h
        exact .inl ⟨rfl, rfl, rfl⟩
    | some i => exact .inr ⟨i, rfl, h⟩

theorem grant_eq_ok {frameCnt i : ℕ} {res : Option (PageRange uma)}
    (h : (grant frameCnt pageSize i).run r = .ok res r') :
    ∃ base : PageAddr uma, i < r.frames.length ∧
      base.base.value = r.base.base.value + i * r.base.pageSize.usize ∧ base.pageSize = pageSize ∧
      res = some ⟨base, Usize.powerOfTwoAbove frameCnt >>> (pageSize.order - frameOrder)⟩ ∧
      r' = { r with frames := r.frames.set i ⟨Usize.ceilLog2 frameCnt⟩ } := by
  obtain ⟨_, r₂, hset, h⟩ := Code.bind_eq_ok.mp h
  have hi : i < r.frames.length := by
    by_contra hge
    rw [setOrder, Code.get_bind, if_neg hge] at hset
    exact nomatch hset
  cases (setOrder_run hi _).symm.trans hset
  rw [Code.get_bind] at h
  obtain ⟨o, _, hadd, h⟩ := Code.bind_eq_ok.mp h
  obtain ⟨q, _, hexp, h⟩ := Code.bind_eq_ok.mp h
  obtain ⟨rfl, rfl⟩ := Code.expect_eq_ok.mp hexp
  obtain ⟨hq, rfl⟩ := PageAddr.checkedPageAdd_eq_ok hadd
  obtain ⟨base, _, hnew, h⟩ := Code.bind_eq_ok.mp h
  obtain ⟨hbase, hsize, rfl⟩ := PageAddr.new_eq_ok hnew
  cases h
  exact ⟨base, hi, hbase ▸ hq, hsize, rfl, rfl⟩

/-- What a successful allocation did. -/
theorem allocatePages_some (hp : r.Placed)
    (h : (allocatePages cnt pageSize).run r = .ok (some pages) r') :
    ∃ buddy, (BuddySystem.reserve (r.blockOf pages cnt).order).run r.buddy
        = .ok (some (r.blockOf pages cnt).idx) buddy ∧
      (r.blockOf pages cnt).idx < r.frames.length ∧
      pages.base.base.value = r.addrOf (r.blockOf pages cnt).idx ∧
      (pages.base.pageSize = pageSize ∧ pages.len = Usize.powerOfTwoAbove
        (cnt * (pageSize.usize / frameSize)) >>> (pageSize.order - frameOrder)) ∧
      r' = { r with
        frames := r.frames.set (r.blockOf pages cnt).idx ⟨(r.blockOf pages cnt).order⟩
        buddy } := by
  rcases request_cases (request_of_allocatePages h) with
    ⟨hnone, -⟩ | ⟨o, buddy, hbuddy, ⟨-, hnone, -⟩ | ⟨i, rfl, hgrant⟩⟩
  · exact nomatch hnone
  · exact nomatch hnone
  · obtain ⟨base, hi, haddr, hsize, hpages, rfl⟩ := grant_eq_ok hgrant
    cases hpages
    have hbase : base.base.value = r.base.base.value + i * 4096 := by rw [haddr, hp.small]; rfl
    have hblock : r.blockOf ⟨base, Usize.powerOfTwoAbove (cnt * (pageSize.usize / frameSize)) >>>
        (pageSize.order - frameOrder)⟩ cnt
        = ⟨i, Usize.ceilLog2 (cnt * (pageSize.usize / frameSize))⟩ := by
      simp only [blockOf, hbase, hsize, frameSize_eq]
      congr 1
      omega
    rw [hblock]
    exact ⟨buddy, hbuddy, hi, hbase, ⟨hsize, rfl⟩, rfl⟩

/-- The forest offers no block of the order: it is above the largest order, or no root records
more than it. -/
def Exhausted (r : PhysicalMemoryRecord) (order : ℕ) : Prop :=
  r.buddy.maxOrder < order ∨
    ∀ k < r.buddy.map.treeCnt, r.buddy.map.val (r.buddy.root k) ≤ Buddy.free order

theorem request_refused (hok : r.buddy.Ok) {frameCnt : ℕ}
    (h : r.Exhausted (Usize.ceilLog2 frameCnt)) :
    (request frameCnt pageSize).run r = .ok none r := by
  rw [request, Code.get_bind]
  by_cases hlt : r.buddy.maxOrder < Usize.ceilLog2 frameCnt
  · rw [if_pos hlt]; rfl
  · have hnone := BuddySystem.reserve_none hok (not_lt.mp hlt) fun k hk =>
      not_lt.mpr (h.resolve_left hlt k hk)
    have hbuddy : (onBuddy (BuddySystem.reserve (Usize.ceilLog2 frameCnt))).run r = .ok none r :=
      Code.zoom_ok hnone
    rw [if_neg hlt, Code.bind_ok hbuddy]
    rfl

theorem request_reserved {frameCnt i : ℕ} {buddy : BuddySystem}
    (hord : Usize.ceilLog2 frameCnt ≤ r.buddy.maxOrder)
    (hres : (BuddySystem.reserve (Usize.ceilLog2 frameCnt)).run r.buddy = .ok (some i) buddy) :
    (request frameCnt pageSize).run r = (grant frameCnt pageSize i).run { r with buddy } := by
  have hbuddy : (onBuddy (BuddySystem.reserve (Usize.ceilLog2 frameCnt))).run r
      = .ok (some i) { r with buddy } := Code.zoom_ok hres
  rw [request, Code.get_bind, if_neg (not_lt.mpr hord), Code.bind_ok hbuddy]

/-- `grant` up to the page it makes of the address. -/
theorem grant_run (hp : r.Placed) (frameCnt : ℕ) (pageSize : PageSize) {i : ℕ}
    (hi : i < r.frames.length) : ∃ base : Addr uma, base.value = r.addrOf i ∧
      (grant frameCnt pageSize i).run r = (do
        let page ← PageAddr.new base pageSize
        return some (⟨page, Usize.powerOfTwoAbove frameCnt >>> (pageSize.order - frameOrder)⟩ :
          PageRange uma)).run { r with frames := r.frames.set i ⟨Usize.ceilLog2 frameCnt⟩ } := by
  have hroom : r.base.base.value + i * r.base.pageSize.usize < uma.stop := by
    have hin := hp.inside
    have hsmall : PageSize.small.usize = 4096 := rfl
    rw [frameSize_eq] at hin
    rw [hp.small, hsmall]
    omega
  obtain ⟨q, hq, -, haddr⟩ := r.base.checkedPageAdd_run (Nat.zero_le _) hroom
    { r with frames := r.frames.set i ⟨Usize.ceilLog2 frameCnt⟩ }
  rw [hp.small] at haddr
  refine ⟨q.base, haddr, ?_⟩
  rw [grant, Code.bind_ok (setOrder_run hi _), Code.get_bind, Code.bind_ok hq,
    Code.bind_ok (Code.expect_some q _ _)]

/-- The frames begin at a page of the size. -/
theorem grant_aligned (hp : r.Placed) (frameCnt : ℕ) {i : ℕ} (hi : i < r.frames.length)
    (hdvd : pageSize.align ∣ r.addrOf i) :
    ∃ pages r', (grant frameCnt pageSize i).run r = .ok (some pages) r' ∧
      pages.base.base.value = r.addrOf i ∧ pages.base.pageSize = pageSize ∧
      pages.len = Usize.powerOfTwoAbove frameCnt >>> (pageSize.order - frameOrder) := by
  obtain ⟨base, hbase, hrun⟩ := grant_run hp frameCnt pageSize hi
  rw [← hbase] at hdvd
  exact ⟨_, _, hrun.trans (Code.bind_ok (PageAddr.new_of_dvd hdvd _)), hbase, rfl, rfl⟩

/-- They do not: the assertion fires, and the block stays reserved. -/
theorem grant_misaligned (hp : r.Placed) (frameCnt : ℕ) {i : ℕ} (hi : i < r.frames.length)
    (hdvd : ¬ pageSize.align ∣ r.addrOf i) :
    (grant frameCnt pageSize i).run r
      = .error (.assertion "") { r with frames := r.frames.set i ⟨Usize.ceilLog2 frameCnt⟩ } := by
  obtain ⟨base, hbase, hrun⟩ := grant_run hp frameCnt pageSize hi
  rw [← hbase] at hdvd
  rw [hrun]
  refine Code.bind_error ?_
  rw [PageAddr.new, dif_neg hdvd]
  rfl

/-- The frames are counted and the count is rounded up before anything else is done. -/
theorem allocatePages_overflow (hcnt : 2 ^ 63 < cnt * (pageSize.usize / frameSize)) :
    (allocatePages cnt pageSize).run r = .error .overflow r := by
  unfold allocatePages
  by_cases hmod : cnt * (pageSize.usize / frameSize) < Usize.modulus
  · rw [Code.bind_ok (Usize.mul_of_lt hmod r)]
    exact Code.bind_error (Usize.nextPowerOfTwo_of_gt hcnt r)
  · refine Code.bind_error ?_
    rw [Usize.mul, if_neg hmod]; rfl

end PhysicalMemoryRecord

/-! ## What a run needs of the buddy system -/

namespace BuddySystem

variable {len order : ℕ} {B : List Block → BuddySystem → Prop} {s t : BuddySystem}
  {live : List Block} {b c : Block}

/-- `B` is an invariant of the buddy system and the blocks that are out, as far as the page
allocator over `len` frames relies on it. -/
structure Service (len : ℕ) (B : List Block → BuddySystem → Prop) : Prop where
  ok : ∀ {live s}, B live s → s.Ok
  nodup : ∀ {live s}, B live s → live.Nodup
  aligned : ∀ {live s b}, B live s → b ∈ live → b.Aligned
  disjoint : ∀ {live s b c}, B live s → b ∈ live → c ∈ live → b ≠ c → b.Disjoint c
  fits : ∀ {live s b}, B live s → b ∈ live → b.idx + 2 ^ b.order ≤ len
  reserve : ∀ {live s order k}, B live s → order ≤ s.maxOrder → FirstRoot s order k →
    ∃ i t, (BuddySystem.reserve order).run s = .ok (some i) t ∧ B (⟨i, order⟩ :: live) t
  free : ∀ {live s b}, B live s → b ∈ live →
    ∃ t, (BuddySystem.free b.idx b.order).run s = .ok () t ∧ B (live.erase b) t

namespace Service

/-- A block that is out is known by its first page. -/
theorem eq_of_idx (hB : Service len B) (h : B live s) (hb : b ∈ live) (hc : c ∈ live)
    (he : b.idx = c.idx) : b = c := by
  by_contra hne
  exact hB.disjoint h hb hc hne b.idx b.covers_idx (he ▸ c.covers_idx)

/-- `reserve` has nothing, or hands out a block. -/
theorem reserve_cases (hB : Service len B) (h : B live s) (ho : order ≤ s.maxOrder) :
    (BuddySystem.reserve order).run s = .ok none s ∨
      ∃ i t, (BuddySystem.reserve order).run s = .ok (some i) t ∧ B (⟨i, order⟩ :: live) t := by
  rcases firstRoot_or s order with hnone | ⟨k, hk⟩
  · exact .inl (reserve_none (hB.ok h) ho hnone)
  · exact .inr (hB.reserve h ho hk)

theorem reserveSome {i : ℕ} (hB : Service len B) (h : B live s)
    (hrun : (BuddySystem.reserve order).run s = .ok (some i) t) : B (⟨i, order⟩ :: live) t := by
  rcases hB.reserve_cases h (reserve_order_le hrun) with hnone | ⟨i', t', hsome, h'⟩
  · exact absurd (EStateM.Result.ok.inj (hnone.symm.trans hrun)).1.symm (Option.some_ne_none _)
  · obtain ⟨hi, rfl⟩ := EStateM.Result.ok.inj (hsome.symm.trans hrun)
    obtain rfl := Option.some.inj hi
    exact h'

theorem reserveNone (hB : Service len B) (h : B live s)
    (hrun : (BuddySystem.reserve order).run s = .ok none t) : t = s := by
  rcases hB.reserve_cases h (reserve_order_le hrun) with hnone | ⟨i, t', hsome, -⟩
  · exact (EStateM.Result.ok.inj (hnone.symm.trans hrun)).2.symm
  · exact absurd (EStateM.Result.ok.inj (hsome.symm.trans hrun)).1 (Option.some_ne_none _)

end Service

/-- Some run from `s₀` leads to `s`, with `live` out. -/
def Reached (s₀ : BuddySystem) (live : List Block) (s : BuddySystem) : Prop :=
  ∃ gs, Run s₀ gs live s

end BuddySystem

namespace PhysicalMemoryRecord

variable {r r' r₀ : PhysicalMemoryRecord} {bs live freed : List Block} {b : Block}
  {pages : PageRange uma} {cnt : ℕ} {pageSize : PageSize}

/-! ## Runs -/

/-- A run from `r₀`: the blocks that are out, and those that came back. -/
inductive Run (r₀ : PhysicalMemoryRecord) : List Block → List Block → PhysicalMemoryRecord → Prop
  | start : Run r₀ [] [] r₀
  | allocate {live freed : List Block} {r r' : PhysicalMemoryRecord} {cnt : ℕ} {pageSize : PageSize}
      {pages : PageRange uma} (before : Run r₀ live freed r)
      (run : (allocatePages cnt pageSize).run r = .ok (some pages) r') :
      Run r₀ (r.blockOf pages cnt :: live) freed r'
  | refuse {live freed : List Block} {r r' : PhysicalMemoryRecord} {cnt : ℕ} {pageSize : PageSize}
      (before : Run r₀ live freed r) (run : (allocatePages cnt pageSize).run r = .ok none r') :
      Run r₀ live freed r'
  | deallocate {live freed : List Block} {r r' : PhysicalMemoryRecord} {b : Block}
      {pages : PageRange uma} (before : Run r₀ live freed r) (mem : b ∈ live)
      (base : pages.base.base.value = r.addrOf b.idx)
      (run : (deallocatePages pages).run r = .ok () r') :
      Run r₀ (live.erase b) (b :: freed) r'

/-- A refused allocation changes nothing but the state of the buddy system. -/
theorem allocatePages_none (h : (allocatePages cnt pageSize).run r = .ok none r') :
    r' = r ∨ ∃ order buddy, (BuddySystem.reserve order).run r.buddy = .ok none buddy ∧
      r' = { r with buddy } := by
  rcases request_cases (request_of_allocatePages h) with
    ⟨-, hr⟩ | ⟨o, buddy, hbuddy, ⟨rfl, -, hr⟩ | ⟨i, -, hgrant⟩⟩
  · exact .inl hr
  · exact .inr ⟨_, buddy, hbuddy, hr⟩
  · obtain ⟨_, -, -, -, hsome, -⟩ := grant_eq_ok hgrant
    exact nomatch hsome

/-- The invariant of a run: that of the buddy system, and the table is right at the first frame
of each block that is out. -/
structure Tracked (B : List Block → BuddySystem → Prop) (r₀ : PhysicalMemoryRecord)
    (live : List Block) (r : PhysicalMemoryRecord) : Prop where
  base : r.base = r₀.base
  table : r.framesPtr = r₀.framesPtr
  len : r.frames.length = r₀.frames.length
  buddy : B live r.buddy
  order : ∀ b ∈ live, r.frames[b.idx]? = some ⟨b.order⟩

namespace Tracked

variable {B : List Block → BuddySystem → Prop}

theorem start (h₀ : B [] r₀.buddy) : Tracked B r₀ [] r₀ :=
  ⟨rfl, rfl, rfl, h₀, by simp⟩

theorem placed (h : Tracked B r₀ live r) (hp : r₀.Placed) : r.Placed :=
  ⟨h.base ▸ hp.small, by rw [h.base, h.len]; exact hp.inside⟩

theorem fits (h : Tracked B r₀ live r) (hB : BuddySystem.Service r₀.frames.length B)
    (hb : b ∈ live) : b.idx + 2 ^ b.order ≤ r.frames.length :=
  h.len ▸ hB.fits h.buddy hb

theorem allocate (h : Tracked B r₀ live r) (hB : BuddySystem.Service r₀.frames.length B)
    (hp : r₀.Placed) (hrun : (allocatePages cnt pageSize).run r = .ok (some pages) r') :
    Tracked B r₀ (r.blockOf pages cnt :: live) r' := by
  obtain ⟨buddy, hres, hi, -, -, rfl⟩ := allocatePages_some (h.placed hp) hrun
  have hbuddy := hB.reserveSome h.buddy hres
  refine ⟨h.base, h.table, (List.length_set ..).trans h.len, hbuddy, fun b hb => ?_⟩
  -- another block that is out starts elsewhere
  by_cases he : (r.blockOf pages cnt).idx = b.idx
  · rw [← hB.eq_of_idx hbuddy List.mem_cons_self hb he]
    exact List.getElem?_set_self hi
  · have hb' : b ∈ live := (List.mem_cons.mp hb).resolve_left fun hbe => he (hbe ▸ rfl)
    exact (List.getElem?_set_ne he).trans (h.order b hb')

theorem refuse (h : Tracked B r₀ live r) (hB : BuddySystem.Service r₀.frames.length B)
    (hrun : (allocatePages cnt pageSize).run r = .ok none r') : r' = r := by
  rcases allocatePages_none hrun with rfl | ⟨order, buddy, hres, rfl⟩
  · rfl
  · rw [hB.reserveNone h.buddy hres]

/-- What `deallocate_pages` does to a block that is out. -/
theorem deallocate_run (h : Tracked B r₀ live r) (hB : BuddySystem.Service r₀.frames.length B)
    (hp : r₀.Placed) (hb : b ∈ live) (hbase : pages.base.base.value = r.addrOf b.idx) :
    ∃ buddy, (BuddySystem.free b.idx b.order).run r.buddy = .ok () buddy ∧
      (deallocatePages pages).run r
        = .ok () { r with frames := r.frames.set b.idx ⟨0⟩, buddy } ∧
      Tracked B r₀ (live.erase b) { r with frames := r.frames.set b.idx ⟨0⟩, buddy } := by
  obtain ⟨buddy, hfree, hbuddy⟩ := hB.free h.buddy hb
  refine ⟨buddy, hfree, deallocatePages_ok (h.placed hp) (h.order b hb) hbase hfree, h.base,
    h.table, (List.length_set ..).trans h.len, hbuddy, fun c hc => ?_⟩
  obtain ⟨hne, hc⟩ := (hB.nodup h.buddy).mem_erase_iff.mp hc
  have hidx : b.idx ≠ c.idx := fun he => hne (hB.eq_of_idx h.buddy hb hc he).symm
  exact (List.getElem?_set_ne hidx).trans (h.order c hc)

/-- A forest that offers a block of the order has one that begins at a frame. -/
theorem reserve_run (h : Tracked B r₀ live r) (hB : BuddySystem.Service r₀.frames.length B)
    {order : ℕ} (hoffer : ¬ r.Exhausted order) : ∃ i buddy, order ≤ r.buddy.maxOrder ∧
      (BuddySystem.reserve order).run r.buddy = .ok (some i) buddy ∧ i < r.frames.length ∧
      2 ^ order ∣ i := by
  rw [Exhausted, not_or, not_lt] at hoffer
  obtain ⟨hord, hroots⟩ := hoffer
  rcases BuddySystem.firstRoot_or r.buddy order with hnone | ⟨k, hk⟩
  · exact absurd (fun k hk => not_lt.mp (hnone k hk)) hroots
  · obtain ⟨i, buddy, hres, hbuddy⟩ := hB.reserve h.buddy hord hk
    have hfits := hB.fits hbuddy List.mem_cons_self
    have hpos := Nat.two_pow_pos order
    exact ⟨i, buddy, hord, hres, by rw [h.len]; simp only at hfits; omega,
      hB.aligned hbuddy List.mem_cons_self⟩

/-- A request for at most `2 ^ 63` small pages returns. -/
theorem allocate_ok (h : Tracked B r₀ live r) (hB : BuddySystem.Service r₀.frames.length B)
    (hp : r₀.Placed) (hcnt : cnt ≤ 2 ^ 63) :
    ∃ res r', (allocatePages cnt .small).run r = .ok res r' := by
  rw [allocatePages_eq (Nat.mul_one cnt) hcnt]
  by_cases hno : r.Exhausted (Usize.ceilLog2 cnt)
  · exact ⟨_, _, request_refused (hB.ok h.buddy) hno⟩
  · obtain ⟨i, buddy, hord, hres, hi, -⟩ := h.reserve_run hB hno
    have hpr := h.placed hp
    have hdvd : PageSize.small.align ∣ r.addrOf i :=
      Nat.dvd_add (hpr.small ▸ r.base.aligned) (Nat.dvd_mul_left _ _)
    obtain ⟨pages, r', hrun, -⟩ := grant_aligned (r := { r with buddy })
      ⟨hpr.small, hpr.inside⟩ cnt hi hdvd
    exact ⟨_, _, (request_reserved hord hres).trans hrun⟩

end Tracked

theorem Run.tracked {B : List Block → BuddySystem → Prop}
    (hB : BuddySystem.Service r₀.frames.length B) (hp : r₀.Placed) (h₀ : B [] r₀.buddy)
    (h : Run r₀ live freed r) : Tracked B r₀ live r := by
  induction h with
  | start => exact .start h₀
  | allocate _ run ih => exact ih.allocate hB hp run
  | refuse _ run ih => exact ih.refuse hB run ▸ ih
  | deallocate _ mem base run ih =>
      obtain ⟨buddy, -, hrun, h'⟩ := ih.deallocate_run hB hp mem base
      cases hrun.symm.trans run
      exact h'

/-! ## Runs from a populated buddy system -/

/-- A record whose buddy system was populated over its frames. -/
structure Ready (bs : List Block) (r : PhysicalMemoryRecord) : Prop where
  populated : BuddySystem.Populated r.frames.length bs r.buddy
  placed : r.Placed

/-- The buddy system of a ready record holds a pool in every state of its run. -/
theorem Ready.tracks (h₀ : Ready bs r₀) {gs : List BuddySystem.Grant} {s : BuddySystem}
    (h : BuddySystem.Run r₀.buddy gs live s) :
    ∃ P₀ P, BuddySystem.Filled r₀.frames.length bs r₀.buddy P₀ ∧
      BuddySystem.Tracks r₀.buddy P₀ gs live s P := by
  rcases h₀.populated.filled with ⟨hbig, -⟩ | ⟨P₀, hP₀⟩
  · have hin := h₀.placed.inside
    have hstop : uma.stop = 2 ^ 46 := rfl
    rw [frameSize_eq] at hin
    omega
  · obtain ⟨P, hP⟩ := h.tracks hP₀.holds
    exact ⟨P₀, P, hP₀, hP⟩

/-- A block that is out lies inside the frames. -/
theorem Ready.fits (h₀ : Ready bs r₀) {gs : List BuddySystem.Grant} {s : BuddySystem}
    (h : BuddySystem.Run r₀.buddy gs live s) (hb : b ∈ live) :
    b.idx + 2 ^ b.order ≤ r₀.frames.length := by
  obtain ⟨P₀, P, hP₀, hP⟩ := h₀.tracks h
  have hpos := Nat.two_pow_pos b.order
  -- its last page is covered too
  obtain ⟨c, hc, hcov⟩ := hP.covered hP₀ hb (i := b.idx + 2 ^ b.order - 1)
    ⟨by omega, by omega⟩
  have hfit := h₀.populated.fits c hc
  have hlast := hcov.2
  omega

theorem Ready.service (h₀ : Ready bs r₀) :
    BuddySystem.Service r₀.frames.length (BuddySystem.Reached r₀.buddy) where
  ok := by
    rintro live s ⟨gs, h⟩
    obtain ⟨P₀, P, -, hP⟩ := h₀.tracks h
    exact hP.holds.models.ok
  nodup := by
    rintro live s ⟨gs, h⟩
    obtain ⟨P₀, P, -, hP⟩ := h₀.tracks h
    exact hP.holds.nodup
  aligned := by
    rintro live s b ⟨gs, h⟩ hb
    obtain ⟨P₀, P, -, hP⟩ := h₀.tracks h
    exact hP.holds.aligned b hb
  disjoint := by
    rintro live s b c ⟨gs, h⟩ hb hc hne
    obtain ⟨P₀, P, -, hP⟩ := h₀.tracks h
    exact hP.holds.disjoint hb hc hne
  fits := by
    rintro live s b ⟨gs, h⟩ hb
    exact h₀.fits h hb
  reserve := by
    rintro live s order k ⟨gs, h⟩ ho hk
    obtain ⟨P₀, P, -, hP⟩ := h₀.tracks h
    obtain ⟨n, g, -, hrun, -⟩ := hP.holds.models.reserve_some ho hk
    exact ⟨_, _, hrun, _, h.reserveSome hrun⟩
  free := by
    rintro live s b ⟨gs, h⟩ hb
    obtain ⟨P₀, P, -, hP⟩ := h₀.tracks h
    obtain ⟨t, hrun⟩ := hP.holds.free_ok hb
    exact ⟨t, hrun, gs, h.free hb hrun⟩

/-- The invariant of a run from a ready record: the buddy system makes a run of its own, and the
table is right at the first frame of each block that is out or came back. -/
structure Keeps (r₀ : PhysicalMemoryRecord) (bs live freed : List Block)
    (r : PhysicalMemoryRecord) : Prop extends Tracked (BuddySystem.Reached r₀.buddy) r₀ live r where
  covered : ∀ b ∈ freed, ∃ c ∈ bs, c.Covers b.idx
  zero : ∀ b ∈ freed, (∃ c ∈ live, c.idx = b.idx) ∨ r.frames[b.idx]? = some ⟨0⟩

namespace Keeps

theorem start : Keeps r₀ bs [] [] r₀ := ⟨.start ⟨[], .start⟩, by simp, by simp⟩

theorem allocate (h : Keeps r₀ bs live freed r) (h₀ : Ready bs r₀)
    (hrun : (allocatePages cnt pageSize).run r = .ok (some pages) r') :
    Keeps r₀ bs (r.blockOf pages cnt :: live) freed r' := by
  refine ⟨h.toTracked.allocate h₀.service h₀.placed hrun, h.covered, fun b hb => ?_⟩
  obtain ⟨buddy, -, -, -, -, rfl⟩ := allocatePages_some (h.placed h₀.placed) hrun
  by_cases he : (r.blockOf pages cnt).idx = b.idx
  · exact .inl ⟨_, List.mem_cons_self, he⟩
  · rcases h.zero b hb with ⟨c, hc, hcb⟩ | hz
    · exact .inl ⟨c, List.mem_cons_of_mem _ hc, hcb⟩
    · exact .inr ((List.getElem?_set_ne he).trans hz)

theorem deallocate (h : Keeps r₀ bs live freed r) (h₀ : Ready bs r₀) (hb : b ∈ live)
    (hbase : pages.base.base.value = r.addrOf b.idx)
    (hrun : (deallocatePages pages).run r = .ok () r') :
    Keeps r₀ bs (live.erase b) (b :: freed) r' := by
  obtain ⟨buddy, -, hok, h'⟩ := h.toTracked.deallocate_run h₀.service h₀.placed hb hbase
  cases hok.symm.trans hrun
  obtain ⟨gs, hr⟩ := h.buddy
  obtain ⟨P₀, P, hP₀, hP⟩ := h₀.tracks hr
  have hi : b.idx < r.frames.length := (List.getElem?_eq_some_iff.mp (h.order b hb)).1
  refine ⟨h', ?_, fun c hc => ?_⟩
  · exact List.forall_mem_cons.mpr ⟨hP.covered hP₀ hb b.covers_idx, h.covered⟩
  · by_cases he : b.idx = c.idx
    · exact .inr (he ▸ List.getElem?_set_self hi)
    · have hc' : c ∈ freed := (List.mem_cons.mp hc).resolve_left fun hcb => he (hcb ▸ rfl)
      rcases h.zero c hc' with ⟨d, hd, hdc⟩ | hz
      · refine .inl ⟨d, hP.holds.nodup.mem_erase_iff.mpr ⟨fun hdb => he ?_, hd⟩, hdc⟩
        rw [← hdc, hdb]
      · exact .inr ((List.getElem?_set_ne he).trans hz)

end Keeps

theorem Run.keeps (h₀ : Ready bs r₀) (h : Run r₀ live freed r) : Keeps r₀ bs live freed r := by
  induction h with
  | start => exact .start
  | allocate _ run ih => exact ih.allocate h₀ run
  | refuse _ run ih => exact ih.refuse h₀.service run ▸ ih
  | deallocate _ mem base run ih => exact ih.deallocate h₀ mem base run

/-! ## Bookkeeping -/

/-- Frame `i` can be handed out. -/
def FrameFree (r : PhysicalMemoryRecord) (live : List Block) (i : ℕ) : Prop :=
  BuddySystem.RecordedFree r.buddy live (leaf i)

/-- `r'` is `r` after `b` was allocated and `pages` returned for `cnt`. -/
structure Allocated (r : PhysicalMemoryRecord) (live : List Block) (b : Block) (cnt : ℕ)
    (pages : PageRange uma) (r' : PhysicalMemoryRecord) : Prop where
  len : pages.len = Usize.powerOfTwoAbove cnt
  order : pages.len = 2 ^ b.order
  base : pages.base.base.value = r.addrOf b.idx
  inside : b.idx + pages.len ≤ r.frames.length
  was_free : ∀ i, b.Covers i → r.FrameFree live i
  frames : ∀ i, r'.FrameFree (b :: live) i ↔ r.FrameFree live i ∧ ¬ b.Covers i
  recorded : r'.frames[b.idx]? = some ⟨b.order⟩
  others : ∀ c ∈ live, r'.frames[c.idx]? = r.frames[c.idx]?

/-- `r'` is `r` after `b` was deallocated. -/
structure Deallocated (r : PhysicalMemoryRecord) (live : List Block) (b : Block)
    (r' : PhysicalMemoryRecord) : Prop where
  frames : ∀ i, r'.FrameFree (live.erase b) i ↔ r.FrameFree live i ∨ b.Covers i
  others : ∀ c ∈ live.erase b, r'.frames[c.idx]? = r.frames[c.idx]?

theorem Keeps.allocated (h : Keeps r₀ bs live freed r) (h₀ : Ready bs r₀)
    (hrun : (allocatePages cnt .small).run r = .ok (some pages) r') :
    Allocated r live (r.blockOf pages cnt) cnt pages r' := by
  have h' := h.allocate h₀ hrun
  obtain ⟨buddy, hres, hi, hbase, ⟨hsize, hlen⟩, rfl⟩ :=
    allocatePages_some (h.placed h₀.placed) hrun
  obtain ⟨gs, hr⟩ := h.buddy
  obtain ⟨P₀, P, -, hP⟩ := h₀.tracks hr
  have hcnt : cnt * (PageSize.small.usize / frameSize) = cnt := Nat.mul_one cnt
  have hshift : PageSize.small.order - frameOrder = 0 := rfl
  rw [hcnt, hshift, Nat.shiftRight_zero] at hlen
  have horder : pages.len = 2 ^ (r.blockOf pages cnt).order := by
    rw [hlen, Usize.powerOfTwoAbove_eq]
    simp only [blockOf, hsize, hcnt]
  have hframes := hP.holds.reserveSome_frames hres
  refine ⟨hlen, horder, hbase, ?_, fun i => (hframes i).1, fun i => (hframes i).2,
    h'.order _ List.mem_cons_self, fun c hc => ?_⟩
  · have hfit := h'.fits h₀.service List.mem_cons_self
    rw [horder]
    simpa only [List.length_set] using hfit
  · exact (h'.order c (List.mem_cons_of_mem _ hc)).trans (h.order c hc).symm

theorem Keeps.deallocated (h : Keeps r₀ bs live freed r) (h₀ : Ready bs r₀) (hb : b ∈ live)
    (hbase : pages.base.base.value = r.addrOf b.idx) :
    ∃ r', (deallocatePages pages).run r = .ok () r' ∧ Deallocated r live b r' := by
  obtain ⟨buddy, hfree, hrun, h'⟩ := h.toTracked.deallocate_run h₀.service h₀.placed hb hbase
  obtain ⟨gs, hr⟩ := h.buddy
  obtain ⟨P₀, P, -, hP⟩ := h₀.tracks hr
  exact ⟨_, hrun, hP.holds.free_frames hb hfree, fun c hc =>
    (h'.order c hc).trans (h.order c (List.mem_of_mem_erase hc)).symm⟩

/-- In every state of every run: the table has the order of each block that is
out; a request panics exactly when its count cannot be rounded up to a power of
two; what is allocated are free frames, and what is deallocated are the frames
that were allocated, and nothing else changes. -/
theorem pages_bookkeeping (h₀ : Ready bs r₀) (h : Run r₀ live freed r) :
    (∀ b ∈ live, r.frames[b.idx]? = some ⟨b.order⟩ ∧ b.idx + 2 ^ b.order ≤ r.frames.length) ∧
    (∀ cnt, 1 ≤ cnt →
      ((∃ p r', (allocatePages cnt .small).run r = .error p r') ↔ 2 ^ 63 < cnt)) ∧
    (∀ cnt pages r', (allocatePages cnt .small).run r = .ok (some pages) r' →
      Allocated r live (r.blockOf pages cnt) cnt pages r') ∧
    ∀ b ∈ live, ∀ pages : PageRange uma, pages.base.base.value = r.addrOf b.idx →
      ∃ r', (deallocatePages pages).run r = .ok () r' ∧ Deallocated r live b r' := by
  have hk := h.keeps h₀
  refine ⟨fun b hb => ⟨hk.order b hb, hk.fits h₀.service hb⟩, fun cnt _ => ⟨?_, fun hbig => ?_⟩,
    fun cnt pages r' hrun => hk.allocated h₀ hrun,
    fun b hb pages hbase => hk.deallocated h₀ hb hbase⟩
  · rintro ⟨p, r', herr⟩
    by_contra hle
    obtain ⟨res, r'', hok⟩ := hk.allocate_ok h₀.service h₀.placed (not_lt.mp hle)
    exact nomatch hok.symm.trans herr
  · exact ⟨.overflow, r, allocatePages_overflow (hbig.trans_eq (Nat.mul_one cnt).symm)⟩

/-- Four frames at 2 MiB, by the table and the bytes of the forest. -/
def fourFrames (orders bytes : List ℕ) : PhysicalMemoryRecord :=
  ⟨orders.map Frame.mk, 0, ⟨⟨0x200000⟩, .small, by decide⟩, .fourPages bytes⟩

theorem fourFrames_ready : Ready [⟨0, 2⟩] (fourFrames [9, 9, 9, 9] [3, 2, 2, 1, 1, 1, 1, 0]) :=
  ⟨BuddySystem.fourPages_free, rfl, by decide⟩

/-- Two frames, allocated and deallocated. -/
theorem fourFrames_run :
    Run (fourFrames [9, 9, 9, 9] [3, 2, 2, 1, 1, 1, 1, 0]) [⟨0, 1⟩] []
      (fourFrames [1, 9, 9, 9] [2, 0, 2, 1, 1, 1, 1, 0]) ∧
    Run (fourFrames [9, 9, 9, 9] [3, 2, 2, 1, 1, 1, 1, 0]) [] [⟨0, 1⟩]
      (fourFrames [0, 9, 9, 9] [2, 2, 2, 1, 1, 1, 1, 0]) := by
  have halloc : (allocatePages 2 .small).run (fourFrames [9, 9, 9, 9] [3, 2, 2, 1, 1, 1, 1, 0])
      = .ok (some ⟨⟨⟨0x200000⟩, .small, by decide⟩, 2⟩)
        (fourFrames [1, 9, 9, 9] [2, 0, 2, 1, 1, 1, 1, 0]) := by decide +kernel
  have hfree : (deallocatePages ⟨⟨⟨0x200000⟩, .small, by decide⟩, 2⟩).run
      (fourFrames [1, 9, 9, 9] [2, 0, 2, 1, 1, 1, 1, 0])
      = .ok () (fourFrames [0, 9, 9, 9] [2, 2, 2, 1, 1, 1, 1, 0]) := by decide +kernel
  have h : Run (fourFrames [9, 9, 9, 9] [3, 2, 2, 1, 1, 1, 1, 0]) [⟨0, 1⟩] []
      (fourFrames [1, 9, 9, 9] [2, 0, 2, 1, 1, 1, 1, 0]) := .allocate .start halloc
  exact ⟨h, .deallocate h (List.mem_singleton_self _) rfl hfree⟩

theorem pages_bookkeeping_fourFrames : ∃ r₀ r, Ready [⟨0, 2⟩] r₀ ∧ Run r₀ [⟨0, 1⟩] [] r ∧
    r.frames[0]? = some ⟨1⟩ :=
  ⟨_, _, fourFrames_ready, fourFrames_run.1,
    ((pages_bookkeeping fourFrames_ready fourFrames_run.1).1 _ (List.mem_singleton_self _)).1⟩

/-- A count that cannot be rounded up. -/
theorem allocatePages_panics : ∃ r₀, Ready [⟨0, 2⟩] r₀ ∧ Run r₀ [] [] r₀ ∧
    (allocatePages (2 ^ 63 + 1) .small).run r₀ = .error .overflow r₀ :=
  ⟨_, fourFrames_ready, .start, allocatePages_overflow (by decide)⟩

/-! ## Pages of every size

`PageAddr::new` asks for an aligned address, after the block was taken. -/

/-- What `allocate_pages` is to do: nothing, or return enough pages of the size. -/
def Answers (r : PhysicalMemoryRecord) (cnt : ℕ) (pageSize : PageSize) : Prop :=
  (allocatePages cnt pageSize).run r = .ok none r ∨
    ∃ pages r', (allocatePages cnt pageSize).run r = .ok (some pages) r' ∧
      pages.base.pageSize = pageSize ∧ pageSize.usize ∣ pages.base.base.value ∧ cnt ≤ pages.len

theorem usize_div_frameSize (pageSize : PageSize) :
    pageSize.usize / frameSize = 2 ^ (pageSize.order - frameOrder) := by
  cases pageSize <;> rfl

theorem usize_eq_mul (pageSize : PageSize) :
    pageSize.usize = 2 ^ (pageSize.order - frameOrder) * frameSize := by
  cases pageSize <;> rfl

/-- The order of a request is at least that of one page. -/
theorem two_pow_dvd_of_pages (hcnt : 1 ≤ cnt) {i : ℕ}
    (hi : 2 ^ Usize.ceilLog2 (cnt * (pageSize.usize / frameSize)) ∣ i) :
    pageSize.usize ∣ i * frameSize := by
  have hle : pageSize.order - frameOrder ≤ Usize.ceilLog2 (cnt * (pageSize.usize / frameSize)) := by
    refine Usize.le_ceilLog2 ?_
    rw [usize_div_frameSize]
    exact Nat.le_mul_of_pos_left _ hcnt
  rw [usize_eq_mul]
  exact Nat.mul_dvd_mul_right ((Nat.pow_dvd_pow 2 hle).trans hi) _

/-- The pages returned are at least those asked for. -/
theorem cnt_le_shift : cnt ≤ Usize.powerOfTwoAbove (cnt * (pageSize.usize / frameSize)) >>>
    (pageSize.order - frameOrder) := by
  rw [Nat.shiftRight_eq_div_pow, Nat.le_div_iff_mul_le (Nat.two_pow_pos _), ← usize_div_frameSize]
  exact Usize.le_powerOfTwoAbove _

/-- In every state of every run, a request is answered exactly if its count can be rounded up and
either the forest offers no block for it or the first frame is at a multiple of the page size. -/
theorem allocatePages_answers_iff (h₀ : Ready bs r₀) (h : Run r₀ live freed r) (hcnt : 1 ≤ cnt) :
    r.Answers cnt pageSize ↔ cnt * (pageSize.usize / frameSize) ≤ 2 ^ 63 ∧
      (r.Exhausted (Usize.ceilLog2 (cnt * (pageSize.usize / frameSize))) ∨
        pageSize.usize ∣ r.base.base.value) := by
  have hk := h.keeps h₀
  have hp := hk.placed h₀.placed
  by_cases hle : cnt * (pageSize.usize / frameSize) ≤ 2 ^ 63
  · rw [and_iff_right hle, Answers, allocatePages_eq rfl hle]
    by_cases hno : r.Exhausted (Usize.ceilLog2 (cnt * (pageSize.usize / frameSize)))
    · exact iff_of_true (.inl (request_refused (h₀.service.ok hk.buddy) hno)) (.inl hno)
    obtain ⟨i, buddy, hord, hres, hi, hdvd⟩ := hk.reserve_run h₀.service hno
    have hpages := two_pow_dvd_of_pages hcnt hdvd
    have hiff : pageSize.align ∣ r.addrOf i ↔ pageSize.usize ∣ r.base.base.value :=
      (Nat.dvd_add_iff_left hpages).symm
    rw [request_reserved hord hres]
    by_cases hbase : pageSize.usize ∣ r.base.base.value
    · obtain ⟨pages, r', hrun, haddr, hsize, hlen⟩ := grant_aligned (r := { r with buddy })
        ⟨hp.small, hp.inside⟩ (cnt * (pageSize.usize / frameSize)) hi (hiff.mpr hbase)
      refine iff_of_true (.inr ⟨pages, r', hrun, hsize, ?_, ?_⟩) (.inr hbase)
      · rw [haddr]; exact hiff.mpr hbase
      · rw [hlen]; exact cnt_le_shift
    · have hmis : ¬ pageSize.align ∣ r.addrOf i := fun hd => hbase (hiff.mp hd)
      have herr := grant_misaligned (r := { r with buddy }) ⟨hp.small, hp.inside⟩
        (cnt * (pageSize.usize / frameSize)) hi hmis
      rw [herr]
      refine iff_of_false ?_ (not_or.mpr ⟨hno, hbase⟩)
      rintro (hrun | ⟨_, _, hrun, -⟩) <;> cases hrun
  · refine iff_of_false ?_ fun hand => hle hand.1
    have herr := allocatePages_overflow (r := r) (not_le.mp hle)
    rw [Answers, herr]
    rintro (hrun | ⟨_, _, hrun, -⟩) <;> cases hrun

/-- 1024 pages in one block, which shows in the root. -/
theorem exists_kiloPages : ∃ s, BuddySystem.Populated 1024 [⟨0, 10⟩] s ∧ s.maxOrder = 10 ∧
    0 < s.map.treeCnt ∧ Buddy.free 10 ≤ s.map.val (s.root 0) := by
  have hnew : (BuddySystem.new 1024 fun _ => (pure (some 0) : Code Unit (Option ℕ))).run ()
      = .ok (some ⟨⟨List.replicate 2048 Buddy.reserved, 0, 11, 1⟩, 10⟩) () := by decide +kernel
  obtain ⟨-, ⟨hbig, -⟩ | ⟨-, hok, hroom, hval⟩⟩ := BuddySystem.new_run hnew
  · exact absurd hbig (by decide)
  have halone : ∀ c ∈ ([] : List Block), Block.Disjoint ⟨0, 10⟩ c := by simp
  have hempty := BuddySystem.Filled.of_reserved hok hroom hval
  obtain ⟨s, P, hrun, hsame, hmax, hfill⟩ :=
    hempty.freeForced (by decide) (by decide) (by decide) halone
  refine ⟨s, .freeForced (.new hnew) (by decide) (by decide) (by decide) halone hrun, hmax,
    by rw [hsame.cnt]; decide, ?_⟩
  have hroot : s.root 0 = ⟨10, 0⟩ := by rw [BuddySystem.root, hsame.maxDepth]; rfl
  have hfree : BuddySystem.RecordedFree s [] (s.root 0) := by
    refine hfill.holds.recordedFree_iff.mpr ⟨(hfill.whole_iff _).mpr ?_, ?_⟩
    · exact ⟨_, List.mem_cons_self, hroot.le⟩
    · intro l hl
      obtain ⟨b, hb, -⟩ := (hfill.holds.live_iff l).mp hl
      exact absurd hb List.not_mem_nil
  exact hfill.holds.free_le_root_iff.mpr ⟨_, le_refl _, congrArg Node.order hroot, hfree⟩

/-- 1024 frames from `base` on. -/
def kiloFrames (base : PageAddr uma) (buddy : BuddySystem) : PhysicalMemoryRecord :=
  ⟨List.replicate 1024 ⟨0⟩, 0, base, buddy⟩

theorem kiloFrames_length (base : PageAddr uma) (buddy : BuddySystem) :
    (kiloFrames base buddy).frames.length = 1024 :=
  List.length_replicate

theorem kiloFrames_placed {base : PageAddr uma} (hsmall : base.pageSize = .small)
    (hin : base.base.value + 1024 * frameSize ≤ uma.stop) (buddy : BuddySystem) :
    (kiloFrames base buddy).Placed :=
  ⟨hsmall, by rw [kiloFrames_length]; exact hin⟩

/-- 1024 free frames have a large page, and no huge one. -/
theorem exists_kiloFrames (base : PageAddr uma) (hsmall : base.pageSize = .small)
    (hin : base.base.value + 1024 * frameSize ≤ uma.stop) :
    ∃ s, Ready [⟨0, 10⟩] (kiloFrames base s) ∧
      ¬ (kiloFrames base s).Exhausted (Usize.ceilLog2 512) ∧
      (kiloFrames base s).Exhausted (Usize.ceilLog2 (2 ^ 18)) := by
  obtain ⟨s, hpop, hmax, hcnt, hroot⟩ := exists_kiloPages
  refine ⟨s, ⟨by rw [kiloFrames_length]; exact hpop, kiloFrames_placed hsmall hin s⟩, ?_,
    .inl (hmax.trans_lt (by decide))⟩
  rintro (hlt | hroots)
  · exact absurd (hmax.ge.trans_lt hlt) (by decide)
  · exact absurd (hroot.trans (hroots 0 hcnt)) (not_le.mpr (Buddy.strictMono_free (by decide)))

/-- The frames begin at 2 MiB.  A large page is to be had, at a multiple of 2 MiB; a huge page
is refused. -/
theorem allocatePages_answers_kiloFrames : ∃ r₀, Ready [⟨0, 10⟩] r₀ ∧ Run r₀ [] [] r₀ ∧
    (∃ pages r', (allocatePages 1 .large).run r₀ = .ok (some pages) r' ∧
      0x200000 ∣ pages.base.base.value ∧ 1 ≤ pages.len) ∧
    (allocatePages 1 .huge).run r₀ = .ok none r₀ := by
  obtain ⟨s, hready, hoffer, hno⟩ := exists_kiloFrames ⟨⟨0x200000⟩, .small, by decide⟩ rfl
    (by decide)
  have hlarge : Answers _ 1 .large :=
    (allocatePages_answers_iff hready .start (Nat.le_refl 1)).mpr ⟨by decide, .inr ⟨1, rfl⟩⟩
  have hhuge : Answers _ 1 .huge :=
    (allocatePages_answers_iff hready .start (Nat.le_refl 1)).mpr ⟨by decide, .inl hno⟩
  have hcount : 1 * (PageSize.large.usize / frameSize) = 512 := rfl
  refine ⟨_, hready, .start, ?_, ?_⟩
  · rcases hlarge with hnone | ⟨pages, r', hrun, -, hdvd, hlen⟩
    · obtain ⟨i, buddy, hord, hres, -⟩ :=
        (Tracked.start ⟨[], .start⟩).reserve_run hready.service hoffer
      rw [allocatePages_eq hcount (by decide), request_reserved hord hres] at hnone
      obtain ⟨_, -, -, -, hsome, -⟩ := grant_eq_ok hnone
      exact absurd hsome.symm (Option.some_ne_none _)
    · exact ⟨pages, r', hrun, hdvd, hlen⟩
  · rcases hhuge with hnone | ⟨pages, r', hrun, -⟩
    · exact hnone
    · have hcount' : 1 * (PageSize.huge.usize / frameSize) = 2 ^ 18 := rfl
      have hnone : (request (2 ^ 18) .huge).run _ = .ok none _ :=
        request_refused (hready.service.ok ⟨[], .start⟩) hno
      rw [allocatePages_eq hcount' (by decide), hnone] at hrun
      exact absurd (EStateM.Result.ok.inj hrun).1.symm (Option.some_ne_none _)

/-- Where they begin a page past 2 MiB, any large page taken from them is a page past a multiple
of 2 MiB too. -/
theorem allocatePages_large_panics : ∃ r₀ r', Ready [⟨0, 10⟩] r₀ ∧ Run r₀ [] [] r₀ ∧
    (allocatePages 1 .large).run r₀ = .error (.assertion "") r' := by
  have hin : 0x201000 + 1024 * frameSize ≤ uma.stop := by decide
  obtain ⟨s, hready, hoffer, -⟩ := exists_kiloFrames ⟨⟨0x201000⟩, .small, by decide⟩ rfl hin
  have hcount : 1 * (PageSize.large.usize / frameSize) = 512 := rfl
  obtain ⟨i, buddy, hord, hres, hi, hdvd⟩ :=
    (Tracked.start ⟨[], .start⟩).reserve_run hready.service hoffer
  have hbase : ¬ PageSize.large.usize ∣ 0x201000 := by decide
  have hmis : ¬ PageSize.large.align ∣
      (kiloFrames ⟨⟨0x201000⟩, .small, by decide⟩ buddy).addrOf i :=
    fun hd => hbase <|
      (Nat.dvd_add_iff_left (two_pow_dvd_of_pages (Nat.le_refl 1) hdvd)).mpr hd
  exact ⟨_, _, hready, .start, (allocatePages_eq hcount (by decide)).trans
    ((request_reserved hord hres).trans
      (grant_misaligned (kiloFrames_placed rfl hin buddy) 512 hi hmis))⟩

/-! ## Double frees -/

/-- The first page of a block that came back is recorded free, unless a block of
one page is out there. -/
theorem Keeps.leaf_free (h : Keeps r₀ bs live freed r) (h₀ : Ready bs r₀) (hb : b ∈ freed)
    (hout : ∀ c ∈ live, c.idx ≠ b.idx) :
    r.buddy.Ok ∧ r.buddy.map.In (leaf b.idx) ∧ r.buddy.map.val (leaf b.idx) = Buddy.free 0 := by
  obtain ⟨gs, hr⟩ := h.buddy
  obtain ⟨P₀, P, hP₀, hP⟩ := h₀.tracks hr
  obtain ⟨c, hc, hcov⟩ := h.covered b hb
  have hwhole : leaf b.idx ∈ P.whole := hP.leaf_mem _ <| (hP₀.whole_iff _).mpr
    ⟨c, hc, (hP₀.aligned c hc).covers_iff.mp hcov⟩
  have hlive : leaf b.idx ∉ P.live := by
    intro hl
    obtain ⟨d, hd, hnode⟩ := (hP.holds.live_iff _).mp hl
    have hidx := (hP.holds.aligned d hd).idx_eq
    have hord : d.order = 0 := congrArg Node.order hnode
    rw [hnode, hord, Nat.pow_zero, Nat.mul_one] at hidx
    exact hout d hd hidx.symm
  have hin := hP.holds.models.whole _ hwhole
  exact ⟨hP.holds.models.ok, hin, (hP.holds.models.val_eq_free_iff hin.1).mpr ⟨hwhole, hlive⟩⟩

/-- Deallocating what has come back already, while no block that starts there is
out: the assertion fires, and nothing has changed. -/
theorem double_free_caught (h₀ : Ready bs r₀) (h : Run r₀ live freed r) (hb : b ∈ freed)
    (hout : ∀ c ∈ live, c.idx ≠ b.idx) (hbase : pages.base.base.value = r.addrOf b.idx) :
    (deallocatePages pages).run r = .error (.assertion "BuddySystem: Double Free!") r := by
  have hk := h.keeps h₀
  obtain ⟨hok, hin, hval⟩ := hk.leaf_free h₀ hb hout
  have hzero := (hk.zero b hb).resolve_left fun ⟨c, hc, he⟩ => hout c hc he
  refine deallocatePages_error (hk.placed h₀.placed) hzero hbase
    (BuddySystem.free_double hok hin ?_)
  exact fun he => Buddy.free_ne_reserved 0 (hval.symm.trans he)

theorem double_free_caught_fourFrames : ∃ r₀ r, Ready [⟨0, 2⟩] r₀ ∧ Run r₀ [] [⟨0, 1⟩] r ∧
    (deallocatePages ⟨⟨⟨0x200000⟩, .small, by decide⟩, 2⟩).run r
      = .error (.assertion "BuddySystem: Double Free!") r :=
  ⟨_, _, fourFrames_ready, fourFrames_run.2,
    double_free_caught fourFrames_ready fourFrames_run.2 (List.mem_singleton_self _) (by simp) rfl⟩

end PhysicalMemoryRecord

end Koe
