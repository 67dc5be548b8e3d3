/-
# `KoeOs.Alloc.Fit` — every block fits its layout

Whatever calls were made before, and whatever the physical memory does: a block that the heap
hands out has the size and the alignment that were asked for.

    large layouts    whole pages
    small layouts    a slot of `2 ^ order` bytes, at a multiple of its size

The second needs one thing of the state: the slabs of the caches lie at page boundaries
(`Heap.Aligned`).  Pages come from the page allocator so, and no call moves a slab.

The order of the slots lies between 3 and 10 if the padded size is at most 1024.  The code
that is to refuse larger ones comes after the index into the caches, and is never reached
(`allocate_oversized`).
-/
import KoeOs.Alloc.HeapRun
import KoeOs.Alloc.SlabRun

namespace Koe

/-! ## Slabs stay where they are -/

namespace Slab

variable {T : Item} {slab slab' : UntypedSlab}

/-- A slot that `reserve` returned. -/
theorem reserve_eq_ok {ret : Option ℕ} (h : (reserve T).run slab = .ok ret slab') :
    slab'.addr = slab.addr ∧ ∀ ptr, ret = some ptr → ∃ j, ptr = slotAt T slab.addr j := by
  unfold reserve at h
  rw [Code.get_bind] at h
  split at h
  · cases h
    exact ⟨rfl, fun _ hptr => nomatch hptr⟩
  · split at h
    · cases h
    · rename_i j _
      obtain ⟨_, _, hassert, h⟩ := Code.bind_eq_ok.mp h
      obtain ⟨-, rfl⟩ := Code.assert_eq_ok.mp hassert
      obtain ⟨_, _, hset, h⟩ := Code.bind_eq_ok.mp h
      cases hset
      obtain ⟨ptr, _, hslot, h⟩ := Code.bind_eq_ok.mp h
      rw [slot] at hslot
      split at hslot <;> cases hslot
      split at h <;> cases h
      · exact ⟨rfl, fun _ hptr => nomatch hptr⟩
      · refine ⟨rfl, fun ptr hptr => ⟨j, ?_⟩⟩
        cases hptr
        rfl

theorem preserves_free (a ptr : ℕ) :
    Code.Preserves (fun slab : UntypedSlab => slab.addr = a) (free T ptr) := by
  unfold free
  refine Code.preserves_get_bind fun slab b t hslab h => ?_
  refine (?_ : Code.Preserves (fun slab : UntypedSlab => slab.addr = a) _) slab b t hslab h
  refine (Code.preserves_assert _ _).bind fun _ => (Code.preserves_assert _ _).bind fun _ => ?_
  refine Code.preserves_ite (fun _ _ _ _ h => nomatch h) ?_
  dsimp only
  generalize (map T slab)[Isize.toUsize (((ptr : ℤ) - slots T slab) / T.layout.slotSize)]? = bit
  cases bit with
  | none => exact Code.preserves_throw _
  | some bit =>
      refine (Code.preserves_assert _ _).bind fun _ => (Code.preserves_modify ?_).bind fun _ =>
        Code.preserves_ite (Code.preserves_modify ?_) (Code.preserves_throw _)
      · exact fun _ hs => hs
      · exact fun _ hs => hs

end Slab

namespace UntypedCache

/-- The slabs of the cache lie at page boundaries. -/
def Aligned (c : UntypedCache) : Prop := ∀ level, ∀ slab ∈ c.list level, 4096 ∣ slab.addr

variable {c : UntypedCache}

theorem list_setList (c : UntypedCache) (level level' : SlabFillLevel)
    (slabs : List UntypedSlab) :
    (c.setList level slabs).list level' = if level' = level then slabs else c.list level' := by
  cases level <;> cases level' <;> rfl

theorem aligned_new : new.Aligned := fun level slab hslab => by
  cases level <;> cases hslab

namespace Aligned

variable (h : c.Aligned) {level : SlabFillLevel}
include h

theorem setList {slabs : List UntypedSlab} (hslabs : ∀ slab ∈ slabs, 4096 ∣ slab.addr) :
    (c.setList level slabs).Aligned := by
  intro level' slab hslab
  rw [list_setList] at hslab
  split at hslab
  · exact hslabs slab hslab
  · exact h level' slab hslab

theorem pushFront {slab : UntypedSlab} (hslab : 4096 ∣ slab.addr) :
    (c.pushFront level slab).Aligned :=
  h.setList (List.forall_mem_cons.mpr ⟨hslab, h level⟩)

theorem mem_slabs {slab : UntypedSlab} (hslab : slab ∈ c.slabs) : 4096 ∣ slab.addr := by
  rw [slabs, List.mem_append, List.mem_append] at hslab
  rcases hslab with (hslab | hslab) | hslab
  · exact h .empty slab hslab
  · exact h .partially slab hslab
  · exact h .full slab hslab

theorem write {slab : UntypedSlab} (hslab : 4096 ∣ slab.addr) : (c.write slab).Aligned := by
  have hmap : ∀ level, ∀ s ∈ (c.list level).map (fun s => if s.addr = slab.addr then slab else s),
      4096 ∣ s.addr := by
    intro level s hs
    obtain ⟨t, ht, rfl⟩ := List.mem_map.mp hs
    split
    · exact hslab
    · exact h level t ht
  intro level
  cases level with
  | empty => exact hmap .empty
  | partially => exact hmap .partially
  | full => exact hmap .full

end Aligned

end UntypedCache

/-! ## What the page allocator returns -/

/-- A block of whole pages.  That it is large enough is asserted, and page addresses are
aligned. -/
theorem PageAllocator.allocate_eq_ok {π : Type} {pm : PhysMem π} {p p' : π} {layout : Layout}
    {e : Extent} (hsize : layout.size ≠ 0) (h : (allocate pm layout).run p = .ok (some e) p') :
    4096 ∣ e.base ∧ layout.size ≤ e.size := by
  have hzst : allocateIfZst layout = none := if_pos hsize
  rw [allocate, hzst] at h
  simp only at h
  obtain ⟨phy, p₁, hphys, h⟩ := Code.bind_eq_ok.mp h
  rw [allocatePhys, if_neg hsize] at hphys
  obtain ⟨_, _, -, hphys⟩ := Code.bind_eq_ok.mp hphys
  obtain ⟨cnt, _, hcnt, hphys⟩ := Code.bind_eq_ok.mp hphys
  cases (pageCnt_run layout _).symm.trans hcnt
  obtain ⟨prange, _, -, hphys⟩ := Code.bind_eq_ok.mp hphys
  cases prange with
  | none =>
      cases hphys
      cases h
  | some prange =>
      obtain ⟨_, _, hlen, hphys⟩ := Code.bind_eq_ok.mp hphys
      obtain ⟨hlen, -⟩ := Code.assert_eq_ok.mp hlen
      obtain ⟨_, _, -, hphys⟩ := Code.bind_eq_ok.mp hphys
      obtain ⟨range, _, hrange, hphys⟩ := Code.bind_eq_ok.mp hphys
      obtain ⟨len, _, hmul, hrange⟩ := Code.bind_eq_ok.mp hrange
      cases hphys
      cases hrange
      simp only at h
      obtain ⟨v, _, hp2v, h⟩ := Code.bind_eq_ok.mp h
      cases h
      obtain ⟨sum, _, hadd, hp2v⟩ := Code.bind_eq_ok.mp hp2v
      obtain ⟨-, rfl, rfl⟩ := Usize.add_eq_ok.mp hadd
      obtain ⟨hvalue, -⟩ := Addr.new_eq_ok hp2v
      obtain ⟨-, rfl, rfl⟩ := Usize.mul_eq_ok.mp hmul
      have hpage : 4096 ∣ prange.base.pageSize.usize := by cases prange.base.pageSize <;> decide
      have hle : 4096 ≤ prange.base.pageSize.usize := by cases prange.base.pageSize <;> decide
      have hbase : 4096 ∣ prange.base.base.value + physicalRemap.start :=
        Nat.dvd_add (Nat.dvd_trans hpage prange.base.aligned) (by decide)
      refine ⟨hvalue.symm ▸ hbase, ?_⟩
      calc layout.size ≤ Usize.roundUp layout.size 4096 := Usize.le_roundUp _ _
        _ = cntOf layout * 4096 := cntOf_mul layout
        _ ≤ prange.len * prange.base.pageSize.usize :=
          Nat.mul_le_mul (of_decide_eq_true hlen) hle

/-! ## What a cache returns -/

namespace Cache

variable {π : Type} {pm : PhysMem π} {T : Item}

theorem newBox_eq_ok {p p' : π} {a : ℕ} (h : (newBox pm).run p = .ok (some a) p') : 4096 ∣ a := by
  obtain ⟨res, _, hrun, h⟩ := Code.bind_eq_ok.mp h
  cases res with
  | none => cases h
  | some e =>
      cases h
      exact (PageAllocator.allocate_eq_ok (by decide) hrun).1

theorem preserves_findSlab :
    Code.Preserves (fun s : Backed π => s.cache.Aligned) (findSlab pm T) := by
  intro s res s' hs h
  unfold findSlab at h
  rw [Code.get_bind] at h
  dsimp only at h
  generalize (if s.cache.partialSlabs.isEmpty then .empty else .partially : SlabFillLevel)
    = level at h
  split at h
  · obtain ⟨box, s₁, hbox, h⟩ := Code.bind_eq_ok.mp h
    obtain ⟨p, hnew, rfl⟩ := Code.zoom_eq_ok.mp hbox
    cases box with
    | none =>
        cases h
        exact hs
    | some a =>
        obtain ⟨_, s₂, hpush, h⟩ := Code.bind_eq_ok.mp h
        obtain ⟨c, hpush, rfl⟩ := Code.zoom_eq_ok.mp hpush
        cases hpush
        cases h
        exact hs.pushFront (newBox_eq_ok hnew)
  · cases h
    exact hs

/-- A slot of a slab at a page boundary. -/
def IsSlot (T : Item) (ptr : ℕ) : Prop := ∃ a j, 4096 ∣ a ∧ ptr = Slab.slotAt T a j

theorem reserveFront_eq_ok {c c' : UntypedCache} {level : SlabFillLevel} {ret : Option ℕ}
    (hc : c.Aligned) (h : (reserveFront T level).run c = .ok ret c') :
    c'.Aligned ∧ ∀ ptr, ret = some ptr → IsSlot T ptr := by
  unfold reserveFront at h
  rw [Code.get_bind] at h
  split at h
  · cases h
  · rename_i slab rest hlist
    have hslabs : ∀ s ∈ slab :: rest, 4096 ∣ s.addr := hlist ▸ hc level
    obtain ⟨hslab, hrest⟩ := List.forall_mem_cons.mp hslabs
    obtain ⟨⟨ret', slab'⟩, _, hloc, hmove⟩ := Code.bind_eq_ok.mp h
    obtain ⟨hres, rfl⟩ := Code.locally_eq_ok.mp hloc
    obtain ⟨haddr, hptr⟩ := Slab.reserve_eq_ok hres
    have hslab' : 4096 ∣ slab'.addr := haddr ▸ hslab
    have hslot : ∀ ptr, ret' = some ptr → IsSlot T ptr := fun ptr hret => by
      obtain ⟨j, hj⟩ := hptr ptr hret
      exact ⟨slab.addr, j, hslab, hj⟩
    dsimp only at hmove
    split at hmove
    · obtain ⟨_, _, hset, hret⟩ := Code.bind_eq_ok.mp hmove
      cases hset
      cases hret
      exact ⟨hc.setList (List.forall_mem_cons.mpr ⟨hslab', hrest⟩), hslot⟩
    · obtain ⟨_, _, hset, hmove⟩ := Code.bind_eq_ok.mp hmove
      cases hset
      obtain ⟨_, _, hpush, hret⟩ := Code.bind_eq_ok.mp hmove
      cases hpush
      cases hret
      exact ⟨(hc.setList hrest).pushFront hslab', hslot⟩

theorem reserve_eq_ok {s s' : Backed π} {ret : Option ℕ} (hs : s.cache.Aligned)
    (h : (reserve pm T).run s = .ok ret s') :
    s'.cache.Aligned ∧ ∀ ptr, ret = some ptr → IsSlot T ptr := by
  obtain ⟨level, s₁, hfind, h⟩ := Code.bind_eq_ok.mp h
  have hs₁ := preserves_findSlab s level s₁ hs hfind
  cases level with
  | none =>
      cases h
      exact ⟨hs₁, fun _ hptr => nomatch hptr⟩
  | some level =>
      obtain ⟨c, hrun, rfl⟩ := Code.zoom_eq_ok.mp h
      exact reserveFront_eq_ok hs₁ hrun

theorem preserves_free (ptr : ℕ) : Code.Preserves UntypedCache.Aligned (free T ptr) := by
  intro c _ c' hc h
  unfold free at h
  rw [Code.get_bind] at h
  split at h
  · cases h
  · rename_i slab hfind
    have hslab := hc.mem_slabs (List.mem_of_find?_eq_some hfind)
    obtain ⟨⟨_, slab'⟩, _, hloc, hmove⟩ := Code.bind_eq_ok.mp h
    obtain ⟨hfree, rfl⟩ := Code.locally_eq_ok.mp hloc
    have haddr := Slab.preserves_free slab.addr ptr slab () slab' rfl hfree
    have hslab' : 4096 ∣ slab'.addr := haddr ▸ hslab
    obtain ⟨_, _, hwrite, hmove⟩ := Code.bind_eq_ok.mp hmove
    cases hwrite
    have hc' := hc.write hslab'
    dsimp only at hmove
    split at hmove
    · cases hmove
      exact hc'
    · obtain ⟨_, _, hget, hmove⟩ := Code.bind_eq_ok.mp hmove
      cases hget
      generalize (if slab.isFull then .full else .partially : SlabFillLevel) = src at hmove
      split at hmove
      · obtain ⟨_, _, hset, hpush⟩ := Code.bind_eq_ok.mp hmove
        cases hset
        cases hpush
        exact (hc'.setList fun s hs => hc' _ s (List.mem_of_mem_eraseP hs)).pushFront hslab'
      · cases hmove

end Cache

/-! ## What the heap returns -/

namespace SlabAllocator

variable {layout : Layout}

/-- A power of two that is not larger than the slots divides their size. -/
theorem align_dvd_orderOf (hsize : layout.size ≠ 0) : layout.align ∣ 2 ^ orderOf layout := by
  have hpos : 0 < layout.padToAlign.size :=
    (Nat.pos_of_ne_zero hsize).trans_le (Usize.le_roundUp layout.size layout.align)
  exact layout.align_dvd_two_pow
    ((Nat.le_of_dvd hpos (Usize.dvd_roundUp layout.align_pos)).trans (padded_le_orderOf layout))

variable {π : Type} {I : Heap π → Prop}

theorem preserves_slotOrder (layout : Layout) : Code.Preserves I (slotOrder layout) :=
  (Usize.preserves_nextMultipleOf _ _).bind fun _ =>
    (Usize.preserves_nextPowerOfTwo _).bind fun _ =>
      Code.preserves_ite (Code.preserves_throw _) (Code.preserves_pure _)

theorem preserves_cacheIdx (order : ℕ) : Code.Preserves I (cacheIdx order) :=
  (Usize.preserves_sub _ _).bind fun idx => by
    by_cases h : idx < 8
    · rw [dif_pos h]
      exact Code.preserves_pure _
    · rw [dif_neg h]
      exact Code.preserves_throw _

end SlabAllocator

namespace Heap

variable {π : Type} {pm : PhysMem π} {p₀ : π} {s s' : Heap π} {layout : Layout}

/-- The slabs of all caches lie at page boundaries. -/
def Aligned (s : Heap π) : Prop := ∀ i, (s.caches i).Aligned

/-- A heap after any calls that returned.  Nothing is asked of the pointers that are given back,
nor of the layouts. -/
inductive Calls (pm : PhysMem π) (p₀ : π) : Heap π → Prop
  | new : Calls pm p₀ (Heap.new p₀)
  | allocate {s s' : Heap π} {layout : Layout} {res : Option Extent} (before : Calls pm p₀ s)
      (run : (GlobalAllocator.allocate pm layout).run s = .ok res s') : Calls pm p₀ s'
  | deallocate {s s' : Heap π} {layout : Layout} {ptr : ℕ} (before : Calls pm p₀ s)
      (run : (GlobalAllocator.deallocate pm ptr layout).run s = .ok () s') : Calls pm p₀ s'

namespace Aligned

variable (hs : s.Aligned)
include hs

theorem update {p : π} {i : Fin 8} {c : UntypedCache} (hc : c.Aligned) :
    Aligned ⟨p, Function.update s.caches i c⟩ :=
  (Function.forall_update_iff s.caches fun _ c => c.Aligned).mpr ⟨hc, fun j _ => hs j⟩

theorem onPhys {α : Type} {x : Code π α} {a : α}
    (h : (GlobalAllocator.onPhys x).run s = .ok a s') : s'.Aligned := by
  obtain ⟨p, -, rfl⟩ := Code.zoom_eq_ok.mp h
  exact hs

theorem reserveFrom {i : Fin 8} {res : Option Extent}
    (h : (SlabAllocator.reserveFrom pm i).run s = .ok res s') :
    s'.Aligned ∧ ∀ e, res = some e → e.size = 2 ^ (i.val + 3) ∧ 2 ^ (i.val + 3) ∣ e.base := by
  obtain ⟨ret, s₁, hrun, h⟩ := Code.bind_eq_ok.mp h
  obtain ⟨⟨p, c⟩, hreserve, rfl⟩ := Code.zoom_eq_ok.mp hrun
  obtain ⟨hc, hslot⟩ := Cache.reserve_eq_ok (hs i) hreserve
  cases ret with
  | none =>
      cases h
      exact ⟨hs.update hc, fun _ he => nomatch he⟩
  | some ptr =>
      cases h
      refine ⟨hs.update hc, fun e he => ?_⟩
      cases he
      obtain ⟨a, j, ha, rfl⟩ := hslot ptr rfl
      exact ⟨rfl, Slab.align_dvd_slotAt _ _ (Nat.dvd_trans (Slab.align_bytes_dvd i) ha) j⟩

theorem freeTo {i : Fin 8} {ptr : ℕ}
    (h : (SlabAllocator.freeTo i ptr).run s = .ok () s') : s'.Aligned := by
  obtain ⟨b, hrun, rfl⟩ := Code.zoom_eq_ok.mp h
  obtain ⟨c, hfree, rfl⟩ := Code.zoom_eq_ok.mp hrun
  exact hs.update (Cache.preserves_free ptr (s.caches i) () c (hs i) hfree)

end Aligned

theorem preserves_allocate (layout : Layout) :
    Code.Preserves Aligned (GlobalAllocator.allocate pm layout) := by
  refine Code.preserves_ite ?_ fun _ _ _ hs h => hs.onPhys h
  unfold SlabAllocator.allocate
  cases allocateIfZst layout with
  | some bytes => exact Code.preserves_pure _
  | none =>
      exact (SlabAllocator.preserves_slotOrder layout).bind fun _ =>
        (SlabAllocator.preserves_cacheIdx _).bind fun _ _ _ _ hs h => (hs.reserveFrom h).1

theorem preserves_deallocate (ptr : ℕ) (layout : Layout) :
    Code.Preserves Aligned (GlobalAllocator.deallocate pm ptr layout) :=
  Code.preserves_ite
    (Code.preserves_ite (Code.preserves_pure _)
      ((SlabAllocator.preserves_slotOrder layout).bind fun _ =>
        (SlabAllocator.preserves_cacheIdx _).bind fun _ _ _ _ hs h => hs.freeTo h))
    fun _ _ _ hs h => hs.onPhys h

theorem Calls.aligned (h : Calls pm p₀ s) : s.Aligned := by
  induction h with
  | new => exact fun _ => UntypedCache.aligned_new
  | allocate _ run ih => exact preserves_allocate _ _ _ _ ih run
  | deallocate _ run ih => exact preserves_deallocate _ _ _ _ _ ih run

/-- A block has the size and the alignment of its layout, whatever was called before.  A layout
of at most 1024 bytes, padded, takes a slot of one of the eight caches, and gives it back to the
same; every other one takes pages, and gives pages back. -/
theorem block_fits_layout (pm : PhysMem π) (p₀ : π) (layout : Layout) (hsize : layout.size ≠ 0)
    (halign : layout.align ≤ 4096) :
    (∀ s e s', Calls pm p₀ s → (GlobalAllocator.allocate pm layout).run s = .ok (some e) s' →
      layout.size ≤ e.size ∧ layout.align ∣ e.base) ∧
    (layout.padToAlign.size ≤ SlabAllocator.maxSize → ∃ i : Fin 8, ∀ s : Heap π,
      (SlabAllocator.slotOrder layout).run s = .ok (i.val + 3) s ∧
      (SlabAllocator.cacheIdx (i.val + 3)).run s = .ok i s ∧
      (GlobalAllocator.allocate pm layout).run s = (SlabAllocator.reserveFrom pm i).run s ∧
      ∀ ptr, (GlobalAllocator.deallocate pm ptr layout).run s
        = (SlabAllocator.freeTo i ptr).run s) ∧
    (SlabAllocator.maxSize < layout.padToAlign.size → ∀ s : Heap π,
      (GlobalAllocator.allocate pm layout).run s
        = (GlobalAllocator.onPhys (PageAllocator.allocate pm layout)).run s ∧
      ∀ ptr, (GlobalAllocator.deallocate pm ptr layout).run s
        = (GlobalAllocator.onPhys (PageAllocator.deallocate pm ptr layout)).run s) := by
  refine ⟨fun s e s' hs h => ?_, fun hsmall => ?_, fun hlarge s => ⟨?_, fun ptr => ?_⟩⟩
  · by_cases hsmall : layout.padToAlign.size ≤ SlabAllocator.maxSize
    · obtain ⟨i, horder, hcalls⟩ := SlabAllocator.exists_cache pm hsize hsmall
      have hslot := (hs.aligned.reserveFrom ((hcalls s).2.1.symm.trans h)).2 e rfl
      rw [← horder] at hslot
      exact ⟨hslot.1 ▸ SlabAllocator.size_le_orderOf layout,
        Nat.dvd_trans (SlabAllocator.align_dvd_orderOf hsize) hslot.2⟩
    · rw [GlobalAllocator.allocate, if_neg hsmall] at h
      obtain ⟨p, hrun, -⟩ := Code.zoom_eq_ok.mp h
      obtain ⟨hbase, hfit⟩ := PageAllocator.allocate_eq_ok hsize hrun
      exact ⟨hfit, Nat.dvd_trans (layout.align_dvd_page halign) hbase⟩
  · obtain ⟨i, horder, hcalls⟩ := SlabAllocator.exists_cache pm hsize hsmall
    exact ⟨i, fun s => ⟨horder ▸ SlabAllocator.slotOrder_run layout s, hcalls s⟩⟩
  · rw [GlobalAllocator.allocate, if_neg hlarge.not_ge]
  · rw [GlobalAllocator.deallocate, if_neg hlarge.not_ge]

/-- 24 bytes at a multiple of 8 over four free frames: the first slot of 32 bytes. -/
theorem block_fits_layout_word : ∃ s : Heap PhysicalMemoryRecord,
    (GlobalAllocator.allocate PhysicalMemoryRecord.physMem
        ⟨24, 8, Layout.align_word, by decide⟩).run
      (Heap.new (.fourFrames [9, 9, 9, 9] [3, 2, 2, 1, 1, 1, 1, 0]))
      = .ok (some ⟨0xFFFF888000200060, 32⟩) s ∧
    24 ≤ 32 ∧ 8 ∣ 0xFFFF888000200060 := by
  have hvalue : (GlobalAllocator.allocate PhysicalMemoryRecord.physMem
        ⟨24, 8, Layout.align_word, by decide⟩).value
      (Heap.new (.fourFrames [9, 9, 9, 9] [3, 2, 2, 1, 1, 1, 1, 0]))
      = some (some ⟨0xFFFF888000200060, 32⟩) := by decide +kernel
  obtain ⟨s, hrun⟩ := Code.exists_run_of_value hvalue
  have hfits := block_fits_layout PhysicalMemoryRecord.physMem
    (.fourFrames [9, 9, 9, 9] [3, 2, 2, 1, 1, 1, 1, 0]) ⟨24, 8, Layout.align_word, by decide⟩
    (by decide) (by decide)
  exact ⟨s, hrun, hfits.1 _ _ s .new hrun⟩

end Heap

/-! ## Requests that are too large -/

namespace SlabAllocator

variable {π : Type} {layout : Layout}

/-- The answer to a request that no cache can serve: `Err(AllocError)`, and the caches as they
were. -/
def FailsCleanly (pm : PhysMem π) (layout : Layout) (s : Heap π) : Prop :=
  ∃ s', (allocate pm layout).run s = .ok none s' ∧ s'.caches = s.caches

theorem lt_orderOf (hlarge : maxSize < layout.padToAlign.size) : 10 < orderOf layout := by
  have hlt : 2 ^ 10 < 2 ^ orderOf layout := hlarge.trans_le (padded_le_orderOf layout)
  exact (Nat.pow_lt_pow_iff_right (by decide)).mp hlt

/-- There is no cache of such an order. -/
theorem cacheIdx_error {order : ℕ} (h : 10 < order) (s : Heap π) :
    (cacheIdx order).run s = .error .bounds s := by
  have hmin : minOrder = 3 := rfl
  rw [cacheIdx, hmin, Code.bind_ok (Usize.sub_of_le (by omega) s), dif_neg (by omega)]
  rfl

theorem allocate_error (pm : PhysMem π) (s : Heap π)
    (hlarge : maxSize < layout.padToAlign.size) :
    (allocate pm layout).run s = .error .bounds s := by
  have hsize : layout.size ≠ 0 := fun hzero => by
    rw [show layout.padToAlign.size = Usize.roundUp layout.size layout.align from rfl, hzero,
      Usize.roundUp_zero] at hlarge
    exact Nat.not_lt_zero _ hlarge
  rw [allocate, show allocateIfZst layout = none from if_pos hsize]
  simp only
  rw [Code.bind_ok (slotOrder_run layout s),
    Code.bind_error (cacheIdx_error (lt_orderOf hlarge) s)]

/-- A request that is too large is never refused: the index into the caches panics, before the
`match` whose last arm is `Err(AllocError)`. -/
theorem allocate_oversized (pm : PhysMem π) (layout : Layout) (s : Heap π)
    (hlarge : maxSize < layout.padToAlign.size) :
    (allocate pm layout).run s = .error .bounds s ∧ ¬ FailsCleanly pm layout s := by
  have hrun := allocate_error pm s hlarge
  refine ⟨hrun, ?_⟩
  rintro ⟨s', hnone, -⟩
  cases hrun.symm.trans hnone

theorem allocate_oversized_byte :
    maxSize < (⟨1025, 1, Layout.align_byte, by decide⟩ : Layout).padToAlign.size ∧
    ¬ FailsCleanly PhysicalMemoryRecord.physMem ⟨1025, 1, Layout.align_byte, by decide⟩
      (Heap.new (.fourFrames [9, 9, 9, 9] [3, 2, 2, 1, 1, 1, 1, 0])) :=
  ⟨by decide, (allocate_oversized _ _ _ (by decide)).2⟩

/-- 2048 bytes, asked of the empty caches. -/
theorem oversized_panics :
    maxSize < (⟨2048, 8, Layout.align_word, by decide⟩ : Layout).padToAlign.size ∧
    (allocate PhysicalMemoryRecord.physMem ⟨2048, 8, Layout.align_word, by decide⟩).run
      (Heap.new (.fourFrames [9, 9, 9, 9] [3, 2, 2, 1, 1, 1, 1, 0]))
      = .error .bounds (Heap.new (.fourFrames [9, 9, 9, 9] [3, 2, 2, 1, 1, 1, 1, 0])) :=
  ⟨by decide, allocate_error _ _ (by decide)⟩

end SlabAllocator

end Koe
