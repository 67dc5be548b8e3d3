/-
# `KoeOs.Alloc.Page` — `PageAllocator` of `src/mem/alloc/page.rs`

Whole pages, from the physical page allocator to the addresses where all physical
memory is mapped:

    allocate      round the size up to pages, take them, add the offset of the map
    deallocate    subtract the offset, round the size up again, give them back

The physical page allocator is a parameter, `PhysMem`.  What the heap relies on is
`Lawful`: a relation between its state and the extents it has handed out and not
taken back, that says they never overlap.
-/
import KoeOs.Mem.Addr
import KoeOs.Rust.Layout
import KoeOs.Lib.Extent
import Mathlib.Data.List.Basic
import Mathlib.Data.List.Pairwise

namespace Koe

/-- The bytes of the pages. -/
def PageRange.extent {S : AddrSpace} (r : PageRange S) : Extent :=
  ⟨r.base.base.value, r.len * r.base.pageSize.usize⟩

/-- The physical page allocator the heap stands on. -/
structure PhysMem (π : Type) where
  allocatePages : ℕ → PageSize → Code π (Option (PageRange uma))
  deallocatePages : PageRange uma → Code π Unit

/-- What the heap relies on.  `Out p out` says that in the state `p` the blocks `out` are handed
out.  They are whole pages inside physical memory and do not overlap; a block that is asked
for is as large as it should be; and a block that is out can be given back. -/
structure PhysMem.Lawful {π : Type} (pm : PhysMem π) (Out : π → List Extent → Prop) : Prop where
  disjoint : ∀ {p out}, Out p out → out.Pairwise Extent.Disjoint
  pages : ∀ {p out}, Out p out → ∀ e ∈ out, 4096 ∣ e.base ∧ 0 < e.size ∧ e.base + e.size ≤ uma.stop
  returns : ∀ {p out cnt}, Out p out → cnt ≤ 2 ^ 63 →
    ∃ res p', (pm.allocatePages cnt .small).run p = .ok res p'
  none : ∀ {p p' out cnt}, Out p out → (pm.allocatePages cnt .small).run p = .ok none p' →
    Out p' out
  some : ∀ {p p' out cnt r}, Out p out →
    (pm.allocatePages cnt .small).run p = .ok (some r) p' →
    Out p' (r.extent :: out) ∧ cnt ≤ r.len ∧ r.base.pageSize = .small
  free : ∀ {p out e} {r : PageRange uma}, Out p out → e ∈ out → r.base.base.value = e.base →
    ∃ p', (pm.deallocatePages r).run p = .ok () p' ∧ Out p' (out.erase e)

/-- `NonNull::<u8>::dangling()`. -/
def dangling : ℕ := 1

/-- Allocate if the layout has size zero. -/
def allocateIfZst (layout : Layout) : Option Extent :=
  if layout.size ≠ 0 then none else some ⟨dangling, 0⟩

/-- Whether the layout has size zero, so that there is nothing to deallocate. -/
def deallocateIfZst (ptr : ℕ) (layout : Layout) : Bool := layout.size == 0 && ptr == dangling

namespace PageAllocator

variable {π : Type} (pm : PhysMem π)

/-- The pages a layout takes. -/
def pageCnt (layout : Layout) : Code π ℕ := do
  return (← Usize.nextMultipleOf layout.size PageSize.min.usize) / PageSize.min.usize

/-- `addr::Allocator<UMASpace>::allocate`. -/
def allocatePhys (layout : Layout) : Code π (Option (AddrRange uma)) := do
  if layout.size = 0 then return some ⟨← Addr.new uma.start, 0⟩
  Code.assert (PageSize.min.align % layout.align == 0) ""
  let cnt ← pageCnt layout
  match ← pm.allocatePages cnt .min with
  | none => return none
  | some prange =>
      Code.assert (cnt ≤ prange.len) ""
      Code.assert (PageSize.min.order ≤ prange.base.pageSize.order) ""
      return some (← prange.toAddrRange)

/-- `addr::Allocator<UMASpace>::deallocate`. -/
def deallocatePhys (addr : Addr uma) (layout : Layout) : Code π Unit := do
  if layout.size = 0 then return ()
  let cnt ← pageCnt layout
  let prange ← AddrRange.new addr (← Usize.mul cnt PageSize.min.usize)
  let prange ← Code.expect (← PageRange.tryFromRange prange .min)
    "pbase and size should be page_aligned."
  pm.deallocatePages prange

/-- `Allocator::allocate`: the bytes, or `None` for `Err(AllocError)`. -/
def allocate (layout : Layout) : Code π (Option Extent) := do
  match allocateIfZst layout with
  | some bytes => return some bytes
  | none =>
      match ← allocatePhys pm layout with
      | none => return none
      | some phy => return some ⟨(← p2v phy.base).value, phy.size⟩

/-- `Allocator::deallocate`. -/
def deallocate (ptr : ℕ) (layout : Layout) : Code π Unit := do
  Code.assert (physicalRemap.start ≤ ptr ∧ ptr < physicalRemap.stop)
    "Try deallocating unallocated memory"
  deallocatePhys pm (← v2p (← Addr.new ptr)) layout

/-! ## What the heap gets -/

/-- The blocks `out` of the map are handed out. -/
def Mapped (Out : π → List Extent → Prop) (p : π) (out : List Extent) : Prop :=
  ∃ phys, Out p phys ∧ out = phys.map (Extent.shift physicalRemap.start)

variable {pm} {Out : π → List Extent → Prop} {p p' : π} {out : List Extent} {e f : Extent}
  {layout : Layout}

theorem Mapped.pages (hpm : pm.Lawful Out) (h : Mapped Out p out) (he : e ∈ out) :
    4096 ∣ e.base ∧ 0 < e.size := by
  obtain ⟨phys, hphys, rfl⟩ := h
  obtain ⟨g, hg, rfl⟩ := List.mem_map.mp he
  obtain ⟨hdvd, hpos, -⟩ := hpm.pages hphys g hg
  exact ⟨Nat.dvd_add hdvd (by decide), hpos⟩

theorem Mapped.disjoint (hpm : pm.Lawful Out) (h : Mapped Out p out) :
    out.Pairwise Extent.Disjoint := by
  obtain ⟨phys, hphys, rfl⟩ := h
  exact List.pairwise_map.mpr ((hpm.disjoint hphys).imp fun hd => hd.shift)

/-- Blocks that start at different addresses do not overlap. -/
theorem Mapped.disjoint_of_ne (hpm : pm.Lawful Out) (h : Mapped Out p out) (he : e ∈ out)
    (hf : f ∈ out) (hne : e.base ≠ f.base) : e.Disjoint f :=
  (h.disjoint hpm).forall he hf fun hef => hne (congrArg Extent.base hef)

/-- A new block starts where no other one does. -/
theorem Mapped.fresh (hpm : pm.Lawful Out) (h : Mapped Out p (e :: out)) (hf : f ∈ out) :
    f.base ≠ e.base := by
  have hdisj := List.rel_of_pairwise_cons (h.disjoint hpm) hf
  exact (hdisj.base_ne (h.pages hpm List.mem_cons_self).2
    (h.pages hpm (List.mem_cons_of_mem _ hf)).2).symm

/-- The pages a layout takes, over the naturals. -/
def cntOf (layout : Layout) : ℕ := Usize.roundUp layout.size 4096 / 4096

theorem cntOf_mul (layout : Layout) : Usize.roundUp layout.size 4096 = cntOf layout * 4096 :=
  (Nat.div_mul_cancel (Usize.dvd_roundUp (by decide))).symm

theorem roundUp_lt_modulus (layout : Layout) : Usize.roundUp layout.size 4096 < Usize.modulus := by
  have hsize := layout.size_le_isizeMax
  have hlt := Usize.roundUp_lt (a := layout.size) (b := 4096) (by decide)
  simp only [Usize.isizeMax, Usize.modulus, Usize.bits] at *
  omega

theorem cntOf_le (layout : Layout) : cntOf layout ≤ 2 ^ 63 := by
  have hlt := roundUp_lt_modulus layout
  rw [cntOf_mul, Usize.modulus, Usize.bits] at hlt
  omega

theorem pageCnt_run (layout : Layout) (p : π) :
    (pageCnt layout).run p = .ok (cntOf layout) p := by
  have husize : PageSize.min.usize = 4096 := rfl
  rw [pageCnt, husize, Code.bind_ok (Usize.nextMultipleOf_of_lt (roundUp_lt_modulus layout) p)]
  rfl

theorem p2v_run {a : Addr uma} (ha : a.value < uma.stop) (p : π) :
    (p2v a).run p = .ok ⟨a.value + physicalRemap.start⟩ p := by
  have hstart : physicalRemap.start = 0xFFFF888000000000 := rfl
  have hstop : physicalRemap.stop = 0xFFFFC88000000000 := rfl
  have huma : uma.stop = 2 ^ 46 := rfl
  have hmod : a.value + physicalRemap.start < Usize.modulus := by
    rw [Usize.modulus, Usize.bits]; omega
  rw [p2v, Code.bind_ok (Usize.add_of_lt hmod p)]
  exact Addr.new_of_mem ⟨Nat.le_add_left _ _, by omega⟩ p

/-- What is left of `allocatePhys` once the pages are counted. -/
theorem allocatePhys_eq (hsize : layout.size ≠ 0) (halign : layout.align ∣ 4096) (p : π) :
    (allocatePhys pm layout).run p = (do
      match ← pm.allocatePages (cntOf layout) .small with
      | none => return none
      | some prange =>
          Code.assert (cntOf layout ≤ prange.len) ""
          Code.assert (PageSize.min.order ≤ prange.base.pageSize.order) ""
          return some (← prange.toAddrRange) : Code π (Option (AddrRange uma))).run p := by
  have hassert : (PageSize.min.align % layout.align == 0) = true :=
    beq_iff_eq.mpr (Nat.mod_eq_zero_of_dvd halign)
  rw [allocatePhys, if_neg hsize, Code.bind_ok (Code.assert_of hassert _ p),
    Code.bind_ok (pageCnt_run layout p)]
  rfl

/-- The pages the physical memory hands out, as a block of bytes. -/
theorem some_pages (hpm : pm.Lawful Out) {phys : List Extent} {cnt : ℕ} {r : PageRange uma}
    (hphys : Out p phys) (hpages : (pm.allocatePages cnt .small).run p = .ok (some r) p') :
    Out p' (⟨r.base.base.value, r.len * 4096⟩ :: phys) ∧ cnt ≤ r.len ∧
      r.base.pageSize = .small ∧ 0 < r.len * 4096 ∧
      r.base.base.value + r.len * 4096 ≤ uma.stop := by
  obtain ⟨hphys', hlen, hsmall⟩ := hpm.some hphys hpages
  have husize : r.base.pageSize.usize = 4096 := by rw [hsmall]; rfl
  rw [PageRange.extent, husize] at hphys'
  obtain ⟨-, hpos, hend⟩ := hpm.pages hphys' _ List.mem_cons_self
  exact ⟨hphys', hlen, hsmall, hpos, hend⟩

/-- The range `allocatePhys` makes of the pages it gets. -/
theorem allocatePhys_pages (hpm : pm.Lawful Out) {phys : List Extent} (hphys : Out p phys)
    (hsize : layout.size ≠ 0) (halign : layout.align ∣ 4096) {res : Option (PageRange uma)}
    (hpages : (pm.allocatePages (cntOf layout) .small).run p = .ok res p') :
    (allocatePhys pm layout).run p
      = .ok (res.map fun r => ⟨r.base.base, r.len * 4096⟩) p' := by
  rw [allocatePhys_eq hsize halign, Code.bind_ok hpages]
  cases res with
  | none => rfl
  | some r =>
      obtain ⟨-, hlen, hsmall, -, hend⟩ := some_pages hpm hphys hpages
      have husize : r.base.pageSize.usize = 4096 := by rw [hsmall]; rfl
      have huma : uma.stop = 2 ^ 46 := rfl
      have hmul : r.len * r.base.pageSize.usize < Usize.modulus := by
        rw [husize, Usize.modulus, Usize.bits]; omega
      have hrange : (r.toAddrRange : Code π (AddrRange uma)).run p'
          = .ok ⟨r.base.base, r.len * 4096⟩ p' := by
        rw [PageRange.toAddrRange, Code.bind_ok (Usize.mul_of_lt hmul p'), husize]
        rfl
      have horder : PageSize.min.order ≤ r.base.pageSize.order := by
        rw [hsmall]
        exact Nat.le_refl _
      simp only
      rw [Code.bind_ok (Code.assert_of (decide_eq_true hlen) _ p'),
        Code.bind_ok (Code.assert_of (decide_eq_true horder) _ p'), Code.bind_ok hrange]
      rfl

/-- `allocatePhys` returns: nothing, or a new block of enough pages. -/
theorem allocatePhys_run (hpm : pm.Lawful Out) {phys : List Extent} (hphys : Out p phys)
    (hsize : layout.size ≠ 0) (halign : layout.align ∣ 4096) :
    (∃ p', (allocatePhys pm layout).run p = .ok none p' ∧ Out p' phys) ∨
    ∃ a size p', (allocatePhys pm layout).run p = .ok (some ⟨⟨a⟩, size⟩) p' ∧
      Out p' (⟨a, size⟩ :: phys) ∧ Usize.roundUp layout.size 4096 ≤ size := by
  obtain ⟨res, p', hpages⟩ := hpm.returns hphys (cntOf_le layout)
  have hrun := allocatePhys_pages hpm hphys hsize halign hpages
  cases res with
  | none => exact .inl ⟨p', hrun, hpm.none hphys hpages⟩
  | some r =>
      obtain ⟨hphys', hlen, -⟩ := some_pages hpm hphys hpages
      refine .inr ⟨_, _, p', hrun, hphys', ?_⟩
      rw [cntOf_mul]
      exact Nat.mul_le_mul_right 4096 hlen

/-- The block `allocate` makes of the pages it gets. -/
theorem allocate_pages (hpm : pm.Lawful Out) {phys : List Extent} (hphys : Out p phys)
    (hsize : layout.size ≠ 0) (halign : layout.align ∣ 4096) {res : Option (PageRange uma)}
    (hpages : (pm.allocatePages (cntOf layout) .small).run p = .ok res p') :
    (allocate pm layout).run p
      = .ok (res.map fun r => ⟨r.base.base.value + physicalRemap.start, r.len * 4096⟩) p' := by
  have hzst : allocateIfZst layout = none := if_pos hsize
  rw [allocate, hzst]
  simp only
  rw [Code.bind_ok (allocatePhys_pages hpm hphys hsize halign hpages)]
  cases res with
  | none => rfl
  | some r =>
      obtain ⟨-, -, -, hpos, hend⟩ := some_pages hpm hphys hpages
      simp only [Option.map_some]
      rw [Code.bind_ok (p2v_run (by omega) p')]
      rfl

/-- `allocate` returns: nothing, or a new block of enough pages. -/
theorem allocate_run (hpm : pm.Lawful Out) (hout : Mapped Out p out) (hsize : layout.size ≠ 0)
    (halign : layout.align ∣ 4096) :
    (∃ p', (allocate pm layout).run p = .ok none p' ∧ Mapped Out p' out) ∨
    ∃ e p', (allocate pm layout).run p = .ok (some e) p' ∧ Mapped Out p' (e :: out) ∧
      Usize.roundUp layout.size 4096 ≤ e.size := by
  obtain ⟨phys, hphys, rfl⟩ := hout
  obtain ⟨res, p', hpages⟩ := hpm.returns hphys (cntOf_le layout)
  have hrun := allocate_pages hpm hphys hsize halign hpages
  cases res with
  | none => exact .inl ⟨p', hrun, phys, hpm.none hphys hpages, rfl⟩
  | some r =>
      obtain ⟨hphys', hlen, -⟩ := some_pages hpm hphys hpages
      refine .inr ⟨_, p', hrun, ⟨_, hphys', rfl⟩, ?_⟩
      rw [cntOf_mul]
      exact Nat.mul_le_mul_right 4096 hlen

theorem v2p_run {a : ℕ} (ha : a < uma.stop) (p : π) :
    (v2p ⟨a + physicalRemap.start⟩).run p = .ok ⟨a⟩ p := by
  rw [v2p, Code.bind_ok (Usize.sub_of_le (Nat.le_add_left _ _) p), Nat.add_sub_cancel]
  exact Addr.new_of_mem ⟨Nat.zero_le _, ha⟩ p

theorem tryFromRange_run {a : Addr uma} (ha : 4096 ∣ a.value) (cnt : ℕ) (p : π) :
    (PageRange.tryFromRange ⟨a, cnt * 4096⟩ .min).run p = .ok (some ⟨⟨a, .small, ha⟩, cnt⟩) p := by
  have hal : a.isAlignedTo PageSize.min.align = true := beq_iff_eq.mpr (Nat.mod_eq_zero_of_dvd ha)
  have hmod : ¬ cnt * 4096 % PageSize.min.align ≠ 0 := not_not.mpr (Nat.mul_mod_left cnt 4096)
  have hdiv : cnt * 4096 / PageSize.min.align = cnt := Nat.mul_div_cancel cnt (by decide)
  rw [PageRange.tryFromRange, if_pos hal, Code.bind_ok (PageAddr.new_of_dvd ha p), if_neg hmod,
    hdiv]
  rfl

/-- What is left of `deallocatePhys` once the pages are counted. -/
theorem deallocatePhys_eq (hsize : layout.size ≠ 0) (addr : Addr uma) :
    deallocatePhys pm addr layout = (do
      let prange ← AddrRange.new addr (← Usize.mul (cntOf layout) PageSize.min.usize)
      let prange ← Code.expect (← PageRange.tryFromRange prange .min)
        "pbase and size should be page_aligned."
      pm.deallocatePages prange) := by
  funext p
  rw [deallocatePhys, if_neg hsize]
  exact Code.bind_ok (pageCnt_run layout p)

/-- `deallocate` takes the address back to physical memory. -/
theorem deallocate_eq {a : ℕ} (ha : 4096 ∣ a) (hsize : layout.size ≠ 0)
    (hend : a + cntOf layout * 4096 ≤ uma.stop) (p : π) :
    (deallocate pm (a + physicalRemap.start) layout).run p
      = (pm.deallocatePages ⟨⟨⟨a⟩, .small, ha⟩, cntOf layout⟩).run p := by
  have hstart : physicalRemap.start = 0xFFFF888000000000 := rfl
  have hstop : physicalRemap.stop = 0xFFFFC88000000000 := rfl
  have huma : uma.stop = 2 ^ 46 := rfl
  have hmodulus : Usize.modulus = 2 ^ 64 := rfl
  have hpos : 0 < cntOf layout * 4096 :=
    cntOf_mul layout ▸ (Nat.pos_of_ne_zero hsize).trans_le (Usize.le_roundUp layout.size 4096)
  have husize : PageSize.min.usize = 4096 := rfl
  have hrange : (AddrRange.new (⟨a⟩ : Addr uma) (cntOf layout * 4096)).run p
      = .ok ⟨⟨a⟩, cntOf layout * 4096⟩ p := by
    rw [AddrRange.new, Code.bind_ok (Usize.add_of_lt (by simp only; omega) p),
      Code.bind_ok (Code.assert_of (decide_eq_true (by simp only; omega)) _ p)]
    rfl
  have hmem : physicalRemap.start ≤ a + physicalRemap.start ∧
      a + physicalRemap.start < physicalRemap.stop := ⟨Nat.le_add_left _ _, by omega⟩
  rw [deallocate, Code.bind_ok (Code.assert_of (decide_eq_true hmem) _ p),
    Code.bind_ok (Addr.new_of_mem hmem p), Code.bind_ok (v2p_run (by omega) p),
    deallocatePhys_eq hsize, husize, Code.bind_ok (Usize.mul_of_lt (by omega) p),
    Code.bind_ok hrange, Code.bind_ok (tryFromRange_run ha _ p),
    Code.bind_ok (Code.expect_some _ _ p)]

/-- What was handed out can be given back. -/
theorem deallocate_run (hpm : pm.Lawful Out) (hout : Mapped Out p out) (he : e ∈ out)
    (hsize : layout.size ≠ 0) (hfit : Usize.roundUp layout.size 4096 ≤ e.size) :
    ∃ p', (deallocate pm e.base layout).run p = .ok () p' ∧ Mapped Out p' (out.erase e) := by
  obtain ⟨phys, hphys, rfl⟩ := hout
  obtain ⟨g, hg, rfl⟩ := List.mem_map.mp he
  obtain ⟨hdvd, -, hend⟩ := hpm.pages hphys g hg
  simp only [Extent.shift, cntOf_mul] at hfit
  obtain ⟨p', hfree, hout'⟩ := hpm.free (r := ⟨⟨⟨g.base⟩, .small, hdvd⟩, cntOf layout⟩) hphys hg rfl
  refine ⟨p', ?_, _, hout', ?_⟩
  · rw [Extent.shift, deallocate_eq hdvd hsize (by omega), hfree]
  · rw [List.map_erase (Extent.shift_injective _)]

end PageAllocator

end Koe
