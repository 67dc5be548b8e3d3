/-
# `KoeOs.Alloc.Backing` — the physical page allocator keeps the heap's contract

`PhysicalMemoryRecord` is the allocator `PageAllocator` calls.  From every record
whose buddy system keeps a `BuddySystem.Service`, and in every state of a run from
there, the frames that are out are pages as `PhysMem.Lawful` wants them.
-/
import KoeOs.Alloc.Page
import KoeOs.Phy.RecordRun

namespace Koe

namespace PhysicalMemoryRecord

variable {r r' r₀ : PhysicalMemoryRecord} {bs live freed : List Block} {b c : Block}

/-- `PhysicalMemoryRecord` for the heap. -/
def physMem : PhysMem PhysicalMemoryRecord := ⟨allocatePages, deallocatePages⟩

/-- The bytes of a block of frames. -/
def extentOf (r : PhysicalMemoryRecord) (b : Block) : Extent :=
  ⟨r.addrOf b.idx, 2 ^ b.order * frameSize⟩

/-- `out` is what a run has handed out. -/
def HandedOut (r : PhysicalMemoryRecord) (out : List Extent) : Prop :=
  ∃ r₀ bs live freed, Ready bs r₀ ∧ Run r₀ live freed r ∧ out = live.map r.extentOf

/-- `out` is what a run from `r₀` has handed out. -/
def HandedFrom (r₀ r : PhysicalMemoryRecord) (out : List Extent) : Prop :=
  ∃ live freed, Run r₀ live freed r ∧ out = live.map r.extentOf

theorem extentOf_injective (r : PhysicalMemoryRecord) : Function.Injective r.extentOf := by
  rintro ⟨i, m⟩ ⟨j, n⟩ h
  have hbase : r.addrOf i = r.addrOf j := congrArg Extent.base h
  have hsize : 2 ^ m * frameSize = 2 ^ n * frameSize := congrArg Extent.size h
  simp only [addrOf, frameSize_eq] at hbase hsize
  have hpow : 2 ^ m = 2 ^ n := by omega
  rw [Nat.pow_right_injective (Nat.le_refl 2) hpow, show i = j by omega]

theorem extentOf_congr (h : r'.base = r.base) : r'.extentOf = r.extentOf := by
  funext b
  rw [extentOf, extentOf, addrOf, addrOf, h]

/-- Blocks without a common frame have no common byte. -/
theorem extentOf_disjoint (h : b.Disjoint c) : (r.extentOf b).Disjoint (r.extentOf c) := by
  rintro x ⟨hb, hb'⟩ ⟨hc, hc'⟩
  simp only [extentOf, addrOf, frameSize_eq] at hb hb' hc hc'
  -- the frame that holds `x`
  exact h ((x - r.base.base.value) / 4096) ⟨by omega, by omega⟩ ⟨by omega, by omega⟩

/-- The bytes of the small pages that were allocated. -/
theorem extent_of_allocatePages (hp : r.Placed) {cnt : ℕ} {pages : PageRange uma}
    (hrun : (allocatePages cnt .small).run r = .ok (some pages) r') :
    pages.extent = r.extentOf (r.blockOf pages cnt) ∧ cnt ≤ pages.len ∧
      pages.base.pageSize = .small := by
  obtain ⟨buddy, -, -, hbase, ⟨hsize, hlen⟩, -⟩ := allocatePages_some hp hrun
  have hcnt : cnt * (PageSize.small.usize / frameSize) = cnt := Nat.mul_one cnt
  have hshift : PageSize.small.order - frameOrder = 0 := rfl
  rw [hcnt, hshift, Nat.shiftRight_zero] at hlen
  refine ⟨?_, hlen ▸ Usize.le_powerOfTwoAbove cnt, hsize⟩
  rw [PageRange.extent, extentOf, hbase, hsize, hlen, Usize.powerOfTwoAbove_eq]
  simp only [blockOf, hsize, hcnt]
  rfl

namespace Tracked

variable {B : List Block → BuddySystem → Prop}

theorem extents_disjoint (h : Tracked B r₀ live r)
    (hB : BuddySystem.Service r₀.frames.length B) :
    (live.map r.extentOf).Pairwise Extent.Disjoint :=
  List.pairwise_map.mpr ((hB.nodup h.buddy).pairwise_of_forall_ne fun _ hb _ hc hne =>
    extentOf_disjoint (hB.disjoint h.buddy hb hc hne))

theorem extent_pages (h : Tracked B r₀ live r) (hB : BuddySystem.Service r₀.frames.length B)
    (hp : r₀.Placed) (hb : b ∈ live) :
    4096 ∣ (r.extentOf b).base ∧ 0 < (r.extentOf b).size ∧
      (r.extentOf b).base + (r.extentOf b).size ≤ uma.stop := by
  obtain ⟨hsmall, hin⟩ := h.placed hp
  have hfit := h.fits hB hb
  have hpos := Nat.two_pow_pos b.order
  have hdvd : 4096 ∣ r.base.base.value := by
    have haligned := r.base.aligned
    rw [hsmall] at haligned
    exact haligned
  simp only [extentOf, addrOf, frameSize_eq] at hin ⊢
  exact ⟨by omega, by omega, by omega⟩

end Tracked

/-- From a record whose buddy system keeps an invariant on, `PhysicalMemoryRecord` is what the
heap relies on. -/
theorem physMem_lawful_from {B : List Block → BuddySystem → Prop}
    (hB : BuddySystem.Service r₀.frames.length B) (hp : r₀.Placed) (h₀ : B [] r₀.buddy) :
    physMem.Lawful (HandedFrom r₀) where
  disjoint := by
    rintro r out ⟨live, freed, h, rfl⟩
    exact (h.tracked hB hp h₀).extents_disjoint hB
  pages := by
    rintro r out ⟨live, freed, h, rfl⟩ e he
    obtain ⟨b, hb, rfl⟩ := List.mem_map.mp he
    exact (h.tracked hB hp h₀).extent_pages hB hp hb
  returns := by
    rintro r out cnt ⟨live, freed, h, -⟩ hcnt
    exact (h.tracked hB hp h₀).allocate_ok hB hp hcnt
  none := by
    rintro r r' out cnt ⟨live, freed, h, rfl⟩ hrun
    obtain rfl := (h.tracked hB hp h₀).refuse hB hrun
    exact ⟨live, freed, h, rfl⟩
  some := by
    rintro r r' out cnt pages ⟨live, freed, h, rfl⟩ hrun
    have ht := h.tracked hB hp h₀
    obtain ⟨hextent, hle, hsmall⟩ := extent_of_allocatePages (ht.placed hp) hrun
    have hbase := (ht.allocate hB hp hrun).base.trans ht.base.symm
    refine ⟨⟨_, freed, h.allocate hrun, ?_⟩, hle, hsmall⟩
    rw [extentOf_congr hbase, hextent, List.map_cons]
  free := by
    rintro r out e pages ⟨live, freed, h, rfl⟩ he hbase
    obtain ⟨b, hb, rfl⟩ := List.mem_map.mp he
    have ht := h.tracked hB hp h₀
    obtain ⟨buddy, -, hrun, ht'⟩ := ht.deallocate_run hB hp hb hbase
    refine ⟨_, hrun, _, _, h.deallocate hb hbase hrun, ?_⟩
    rw [extentOf_congr (ht'.base.trans ht.base.symm), List.map_erase r.extentOf_injective]

theorem Ready.physMem_lawful_from (h₀ : Ready bs r₀) : physMem.Lawful (HandedFrom r₀) :=
  PhysicalMemoryRecord.physMem_lawful_from h₀.service h₀.placed ⟨[], .start⟩

theorem handedOut_iff {out : List Extent} :
    HandedOut r out ↔ ∃ r₀ bs, Ready bs r₀ ∧ HandedFrom r₀ r out := by
  constructor
  · rintro ⟨r₀, bs, live, freed, h₀, h⟩
    exact ⟨r₀, bs, h₀, live, freed, h⟩
  · rintro ⟨r₀, bs, h₀, live, freed, h⟩
    exact ⟨r₀, bs, live, freed, h₀, h⟩

/-- `PhysicalMemoryRecord` is what the heap relies on. -/
theorem physMem_lawful : physMem.Lawful HandedOut where
  disjoint := fun h => by
    obtain ⟨r₀, bs, h₀, h⟩ := handedOut_iff.mp h
    exact h₀.physMem_lawful_from.disjoint h
  pages := fun h => by
    obtain ⟨r₀, bs, h₀, h⟩ := handedOut_iff.mp h
    exact h₀.physMem_lawful_from.pages h
  returns := fun h => by
    obtain ⟨r₀, bs, h₀, h⟩ := handedOut_iff.mp h
    exact h₀.physMem_lawful_from.returns h
  none := fun h hrun => by
    obtain ⟨r₀, bs, h₀, h⟩ := handedOut_iff.mp h
    exact handedOut_iff.mpr ⟨r₀, bs, h₀, h₀.physMem_lawful_from.none h hrun⟩
  some := fun h hrun => by
    obtain ⟨r₀, bs, h₀, h⟩ := handedOut_iff.mp h
    obtain ⟨h', hrest⟩ := h₀.physMem_lawful_from.some h hrun
    exact ⟨handedOut_iff.mpr ⟨r₀, bs, h₀, h'⟩, hrest⟩
  free := fun h he hbase => by
    obtain ⟨r₀, bs, h₀, h⟩ := handedOut_iff.mp h
    obtain ⟨p', hrun, h'⟩ := h₀.physMem_lawful_from.free h he hbase
    exact ⟨p', hrun, handedOut_iff.mpr ⟨r₀, bs, h₀, h'⟩⟩

end PhysicalMemoryRecord

end Koe
