/-
# `KoeOs.Alloc.Pairing` — `PhysicalPageManager` of `src/mem/alloc/page.rs`, and giving back

`PhysicalPageManager` stands beside `PageAllocator` and is to do the same.  For a layout that
takes pages it does: `allocate` returns the same block over a lawful physical memory
(`allocate_eq`), and `deallocate` is the same function (`deallocate_eq`).

For a layout of size zero both return the dangling pointer.  `PhysicalPageManager` knows it
again; `PageAllocator` takes it for an address, and it is none.  So the one takes back whatever
it handed out, and the other what has a size (`page_allocators_pair`).
-/
import KoeOs.Alloc.Backing

namespace Koe

/-- `a.checked_next_multiple_of(b)`. -/
def Usize.checkedNextMultipleOf (a b : ℕ) : Option ℕ :=
  if b ≠ 0 ∧ roundUp a b < modulus then some (roundUp a b) else none

/-- `NonNull::new(ptr)`. -/
def nonNull (ptr : ℕ) : Option ℕ := if ptr = 0 then none else some ptr

namespace PhysicalPageManager

variable {π : Type} (pm : PhysMem π)

/-- `Allocator::allocate`: the bytes, or `None` for `Err(AllocError)`. -/
def allocate (layout : Layout) : Code π (Option Extent) := do
  match allocateIfZst layout with
  | some bytes => return some bytes
  | none =>
      Code.assert (PageSize.min.align % layout.align == 0) ""
      match Usize.checkedNextMultipleOf layout.size PageSize.min.usize with
      | none => return none
      | some size =>
          let cnt := size / PageSize.min.usize
          match ← pm.allocatePages cnt .min with
          | none => return none
          | some prange =>
              Code.assert (cnt ≤ prange.len) ""
              Code.assert (PageSize.min.order ≤ prange.base.pageSize.order) ""
              let vbase ← p2v prange.base.base
              let ptr ← Code.expect (nonNull vbase.value)
                "successfull virtual page allocation should not return null address"
              return some ⟨ptr, ← Usize.mul PageSize.min.usize prange.len⟩

/-- `Allocator::deallocate`. -/
def deallocate (ptr : ℕ) (layout : Layout) : Code π Unit := do
  if deallocateIfZst ptr layout then return ()
  let cnt ← PageAllocator.pageCnt layout
  Code.assert (physicalRemap.start ≤ ptr ∧ ptr < physicalRemap.stop)
    "Try deallocating unallocated memory"
  let pbase ← v2p (← Addr.new ptr)
  let prange ← AddrRange.new pbase (← Usize.mul cnt PageSize.min.usize)
  let prange ← Code.expect (← PageRange.tryFromRange prange .min)
    "pbase and size should be page_aligned."
  pm.deallocatePages prange

/-! ## Layouts that take pages -/

variable {pm} {Out : π → List Extent → Prop} {p p' : π} {out : List Extent} {layout : Layout}

/-- Over a lawful physical memory the blocks are those of `PageAllocator`. -/
theorem allocate_eq (hpm : pm.Lawful Out) (hout : Out p out) (hsize : layout.size ≠ 0)
    (halign : layout.align ∣ 4096) :
    (allocate pm layout).run p = (PageAllocator.allocate pm layout).run p := by
  have hzst : allocateIfZst layout = none := if_pos hsize
  have hassert : (PageSize.min.align % layout.align == 0) = true :=
    beq_iff_eq.mpr (Nat.mod_eq_zero_of_dvd halign)
  have hnext : Usize.checkedNextMultipleOf layout.size PageSize.min.usize
      = some (Usize.roundUp layout.size 4096) :=
    if_pos ⟨by decide, PageAllocator.roundUp_lt_modulus layout⟩
  have hcnt : Usize.roundUp layout.size 4096 / PageSize.min.usize = PageAllocator.cntOf layout :=
    rfl
  obtain ⟨res, p', hpages⟩ := hpm.returns hout (PageAllocator.cntOf_le layout)
  rw [PageAllocator.allocate_pages hpm hout hsize halign hpages, allocate, hzst]
  simp only
  rw [Code.bind_ok (Code.assert_of hassert _ p), hnext]
  simp only [hcnt]
  refine (Code.bind_ok hpages).trans ?_
  cases res with
  | none => rfl
  | some r =>
      obtain ⟨-, hlen, hsmall, hpos, hend⟩ := PageAllocator.some_pages hpm hout hpages
      have horder : PageSize.min.order ≤ r.base.pageSize.order := by
        rw [hsmall]
        exact Nat.le_refl _
      have hnull : nonNull (r.base.base.value + physicalRemap.start)
          = some (r.base.base.value + physicalRemap.start) :=
        if_neg (Nat.ne_of_gt (Nat.add_pos_right _ (by decide)))
      have huma : uma.stop = 2 ^ 46 := rfl
      have husize : PageSize.min.usize = 4096 := rfl
      have hmul : PageSize.min.usize * r.len < Usize.modulus := by
        rw [husize, Usize.modulus, Usize.bits]; omega
      simp only
      rw [Code.bind_ok (Code.assert_of (decide_eq_true hlen) _ p'),
        Code.bind_ok (Code.assert_of (decide_eq_true horder) _ p'),
        Code.bind_ok (PageAllocator.p2v_run (by omega) p'), hnull,
        Code.bind_ok (Code.expect_some _ _ p'), Code.bind_ok (Usize.mul_of_lt hmul p'),
        husize, Nat.mul_comm]
      rfl

/-- Counting the pages first makes no difference. -/
theorem deallocate_eq (hsize : layout.size ≠ 0) (ptr : ℕ) :
    deallocate pm ptr layout = PageAllocator.deallocate pm ptr layout := by
  have hzst : deallocateIfZst ptr layout = false := by simp [deallocateIfZst, hsize]
  funext p
  rw [deallocate, hzst, PageAllocator.deallocate]
  simp only [PageAllocator.deallocatePhys_eq hsize]
  exact Code.bind_ok (PageAllocator.pageCnt_run layout p)

end PhysicalPageManager

/-! ## Giving back -/

section Pairing

variable {π : Type} {pm : PhysMem π} {Out : π → List Extent → Prop} {p p' : π}
  {out : List Extent} {layout : Layout}

/-- A block that `allocate` returns can be given to `deallocate`, and then the blocks that are out
are those of before. -/
def Pairs (Out : π → List Extent → Prop) (allocate : Layout → Code π (Option Extent))
    (deallocate : ℕ → Layout → Code π Unit) (layout : Layout) (p : π) (out : List Extent) : Prop :=
  ∀ e p', (allocate layout).run p = .ok (some e) p' →
    ∃ p'', (deallocate e.base layout).run p' = .ok () p'' ∧ Out p'' out

namespace PageAllocator

theorem mapped_map_iff :
    Mapped Out p (out.map (Extent.shift physicalRemap.start)) ↔ Out p out := by
  refine ⟨?_, fun h => ⟨out, h, rfl⟩⟩
  rintro ⟨phys, hphys, hmap⟩
  exact List.map_injective_iff.mpr (Extent.shift_injective _) hmap ▸ hphys

/-- Pages can be given back. -/
theorem pairs (hpm : pm.Lawful Out) (hout : Out p out) (hsize : layout.size ≠ 0)
    (halign : layout.align ∣ 4096) : Pairs Out (allocate pm) (deallocate pm) layout p out := by
  intro e p' h
  rcases allocate_run hpm (mapped_map_iff.mpr hout) hsize halign with
    ⟨q, hrun, -⟩ | ⟨f, q, hrun, hmapped, hfit⟩
  · cases hrun.symm.trans h
  · cases hrun.symm.trans h
    obtain ⟨p'', hfree, hout'⟩ := deallocate_run hpm hmapped List.mem_cons_self hsize hfit
    rw [List.erase_cons_head] at hout'
    exact ⟨p'', hfree, mapped_map_iff.mp hout'⟩

/-- The dangling pointer is no address of the map. -/
theorem deallocate_dangling (layout : Layout) (p : π) :
    (deallocate pm dangling layout).run p
      = .error (.assertion "Try deallocating unallocated memory") p := rfl

/-- Whatever `allocate` returns can be given back, unless it has no size. -/
theorem pairs_iff (hpm : pm.Lawful Out) (hout : Out p out) (halign : layout.align ∣ 4096) :
    Pairs Out (allocate pm) (deallocate pm) layout p out ↔ layout.size ≠ 0 := by
  refine ⟨fun h hzero => ?_, fun hsize => pairs hpm hout hsize halign⟩
  have hzst : allocateIfZst layout = some ⟨dangling, 0⟩ := if_neg (not_not.mpr hzero)
  have hrun : (allocate pm layout).run p = .ok (some ⟨dangling, 0⟩) p := by
    rw [allocate, hzst]
    rfl
  obtain ⟨p'', hfree, -⟩ := h _ _ hrun
  cases (deallocate_dangling layout p).symm.trans hfree

end PageAllocator

/-- `PhysicalPageManager` takes back whatever it handed out. -/
theorem PhysicalPageManager.pairs (hpm : pm.Lawful Out) (hout : Out p out)
    (halign : layout.align ∣ 4096) :
    Pairs Out (allocate pm) (deallocate pm) layout p out := by
  intro e p' h
  by_cases hsize : layout.size = 0
  · have hzst : allocateIfZst layout = some ⟨dangling, 0⟩ := if_neg (not_not.mpr hsize)
    rw [allocate, hzst] at h
    cases h
    have hfree : deallocateIfZst dangling layout = true := by simp [deallocateIfZst, hsize]
    refine ⟨p, ?_, hout⟩
    rw [deallocate, if_pos hfree]
    rfl
  · rw [allocate_eq hpm hout hsize halign] at h
    rw [deallocate_eq hsize]
    exact PageAllocator.pairs hpm hout hsize halign e p' h

end Pairing

namespace PhysicalMemoryRecord

variable {r₀ r : PhysicalMemoryRecord} {bs live freed : List Block} {layout : Layout}

/-- In every state of the physical memory: what `PageAllocator` returns can be given back, and the
live frames are again those of before, if and only if the layout has a size.
`PhysicalPageManager` takes back what has none as well. -/
theorem page_allocators_pair (h₀ : Ready bs r₀) (h : Run r₀ live freed r)
    (halign : layout.align ≤ 4096) :
    (Pairs (HandedFrom r₀) (PageAllocator.allocate physMem) (PageAllocator.deallocate physMem)
      layout r (live.map r.extentOf) ↔ layout.size ≠ 0) ∧
    Pairs (HandedFrom r₀) (PhysicalPageManager.allocate physMem)
      (PhysicalPageManager.deallocate physMem) layout r (live.map r.extentOf) := by
  have hpm := h₀.physMem_lawful_from
  have hout : HandedFrom r₀ r (live.map r.extentOf) := ⟨live, freed, h, rfl⟩
  have hdvd := layout.align_dvd_page halign
  exact ⟨PageAllocator.pairs_iff hpm hout hdvd, PhysicalPageManager.pairs hpm hout hdvd⟩

/-- 5000 bytes from four free frames: two of them, and back. -/
theorem page_allocators_pair_frames : ∃ r' r'',
    (PageAllocator.allocate physMem ⟨5000, 8, Layout.align_word, by decide⟩).run
      (fourFrames [9, 9, 9, 9] [3, 2, 2, 1, 1, 1, 1, 0])
      = .ok (some ⟨0xFFFF888000200000, 8192⟩) r' ∧
    (PageAllocator.deallocate physMem 0xFFFF888000200000
      ⟨5000, 8, Layout.align_word, by decide⟩).run r' = .ok () r'' ∧
    HandedFrom (fourFrames [9, 9, 9, 9] [3, 2, 2, 1, 1, 1, 1, 0]) r'' [] := by
  have hvalue : (PageAllocator.allocate physMem ⟨5000, 8, Layout.align_word, by decide⟩).value
      (fourFrames [9, 9, 9, 9] [3, 2, 2, 1, 1, 1, 1, 0])
      = some (some ⟨0xFFFF888000200000, 8192⟩) := by decide +kernel
  obtain ⟨r', hrun⟩ := Code.exists_run_of_value hvalue
  have halign : Layout.align ⟨5000, 8, Layout.align_word, by decide⟩ ≤ 4096 := by decide
  obtain ⟨hpairs, -⟩ := page_allocators_pair fourFrames_ready .start halign
  obtain ⟨r'', hfree, hout⟩ := hpairs.mpr (by decide) _ r' hrun
  exact ⟨r', r'', hrun, hfree, hout⟩

/-- A zero-sized layout: `allocate` succeeds, and `deallocate` stops the kernel. -/
theorem zero_sized_panics :
    (PageAllocator.allocate physMem ⟨0, 1, Layout.align_byte, by decide⟩).run
      (fourFrames [9, 9, 9, 9] [3, 2, 2, 1, 1, 1, 1, 0])
      = .ok (some ⟨dangling, 0⟩) (fourFrames [9, 9, 9, 9] [3, 2, 2, 1, 1, 1, 1, 0]) ∧
    (PageAllocator.deallocate physMem dangling ⟨0, 1, Layout.align_byte, by decide⟩).run
      (fourFrames [9, 9, 9, 9] [3, 2, 2, 1, 1, 1, 1, 0])
      = .error (.assertion "Try deallocating unallocated memory")
        (fourFrames [9, 9, 9, 9] [3, 2, 2, 1, 1, 1, 1, 0]) :=
  ⟨rfl, PageAllocator.deallocate_dangling _ _⟩

end PhysicalMemoryRecord

end Koe
