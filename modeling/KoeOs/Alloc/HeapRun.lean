/-
# `KoeOs.Alloc.HeapRun` — the heap hands nothing out twice

A run of the heap makes allocations and gives them back, each with the layout it
was asked for with.  Three things keep the blocks apart:

    pages    what the page allocator has out does not overlap (`Mapped`)
    stock    a page is a slab of one cache, or a block of whole pages (`Stock.Ok`)
    slots    a busy slab has one slot out, which lies behind its header

So no two blocks begin in one page (`Inv.distinct`), and every block lies inside
what was handed out for the page it begins in (`Inv.home`).  The same invariant
says that no call can fail: `deallocate` finds the slab it looks for.
-/
import KoeOs.Alloc.Global
import KoeOs.Alloc.CacheRun
import KoeOs.Alloc.Backing

namespace Koe

/-! ## Size classes -/

namespace SlabAllocator

variable {π : Type} {layout : Layout}

/-- The order `slot_order` computes. -/
def orderOf (layout : Layout) : ℕ := Usize.ceilLog2 (Usize.roundUp layout.padToAlign.size 8)

theorem padded_le_orderOf (layout : Layout) : layout.padToAlign.size ≤ 2 ^ orderOf layout := by
  rw [orderOf, ← Usize.powerOfTwoAbove_eq]
  exact (Usize.le_roundUp _ 8).trans (Usize.le_powerOfTwoAbove _)

/-- A slot of that order holds the layout. -/
theorem size_le_orderOf (layout : Layout) : layout.size ≤ 2 ^ orderOf layout :=
  (Usize.le_roundUp layout.size layout.align).trans (padded_le_orderOf layout)

theorem roundUp_le_maxSize (hsmall : layout.padToAlign.size ≤ maxSize) :
    Usize.roundUp layout.padToAlign.size 8 ≤ 2 ^ 10 := by
  have hmax : maxSize = 1024 := rfl
  have hlt := Usize.roundUp_lt (a := layout.padToAlign.size) (b := 8) (by decide)
  obtain ⟨k, hk⟩ := Usize.dvd_roundUp (a := layout.padToAlign.size) (b := 8) (by decide)
  omega

theorem orderOf_le (hsmall : layout.padToAlign.size ≤ maxSize) : orderOf layout ≤ 10 :=
  Usize.ceilLog2_le (roundUp_le_maxSize hsmall)

theorem le_orderOf (hsize : layout.size ≠ 0) : 3 ≤ orderOf layout := by
  have hle : layout.size ≤ layout.padToAlign.size := Usize.le_roundUp layout.size layout.align
  have hle' := Usize.le_roundUp layout.padToAlign.size 8
  obtain ⟨k, hk⟩ := Usize.dvd_roundUp (a := layout.padToAlign.size) (b := 8) (by decide)
  refine (Nat.pow_le_pow_iff_right (by decide : 1 < 2)).mp ?_
  rw [orderOf, ← Usize.powerOfTwoAbove_eq]
  exact (by omega : 2 ^ 3 ≤ Usize.roundUp layout.padToAlign.size 8).trans
    (Usize.le_powerOfTwoAbove _)

theorem slotOrder_run (layout : Layout) (h : Heap π) :
    (slotOrder layout).run h = .ok (orderOf layout) h := by
  -- a padded size is at most `isize::MAX`, so that neither rounding overflows
  have hle : Usize.roundUp layout.padToAlign.size 8 ≤ 2 ^ 63 := by
    have hsize : layout.padToAlign.size ≤ Usize.isizeMax := layout.size_le
    have hlt := Usize.roundUp_lt (a := layout.padToAlign.size) (b := 8) (by decide)
    obtain ⟨k, hk⟩ := Usize.dvd_roundUp (a := layout.padToAlign.size) (b := 8) (by decide)
    rw [Usize.isizeMax] at hsize
    omega
  have hmod : Usize.roundUp layout.padToAlign.size 8 < Usize.modulus := by
    rw [Usize.modulus, Usize.bits]; omega
  have height : 1 <<< minOrder = 8 := rfl
  rw [slotOrder, height, Code.bind_ok (Usize.nextMultipleOf_of_lt hmod h),
    Code.bind_ok (Usize.nextPowerOfTwo_of_le hle h),
    Usize.ilog2_of_pos (Usize.powerOfTwoAbove_pos _), Usize.log2_powerOfTwoAbove]
  rfl

/-- The index of the cache a small layout goes to. -/
theorem exists_cacheIdx (π : Type) (hsize : layout.size ≠ 0)
    (hsmall : layout.padToAlign.size ≤ maxSize) :
    ∃ i : Fin 8, orderOf layout = i.val + 3 ∧
      ∀ h : Heap π, (cacheIdx (orderOf layout)).run h = .ok i h := by
  have h3 := le_orderOf hsize
  have h10 := orderOf_le hsmall
  have hlt : orderOf layout - 3 < 8 := by omega
  refine ⟨⟨orderOf layout - 3, hlt⟩, by simp only; omega, fun h => ?_⟩
  have hmin : minOrder = 3 := rfl
  rw [cacheIdx, hmin, Code.bind_ok (Usize.sub_of_le h3 h), dif_pos hlt]
  rfl

theorem onCache_ok {α : Type} {x : Code (Backed π) α} {a : α} {s : Heap π} {p' : π}
    {c' : UntypedCache} {i : Fin 8} (h : x.run ⟨s.phys, s.caches i⟩ = .ok a ⟨p', c'⟩) :
    (onCache i x).run s = .ok a ⟨p', Function.update s.caches i c'⟩ := by
  rw [onCache]
  exact Code.zoom_eq_ok.mpr ⟨_, h, rfl⟩

variable (pm : PhysMem π)

/-- Take a slot of cache `i`. -/
def reserveFrom (i : Fin 8) : Code (Heap π) (Option Extent) := do
  match ← onCache i (Cache.reserve pm (Item.bytes i)) with
  | none => return none
  | some ptr => return some ⟨ptr, (Item.bytes i).layout.size⟩

/-- Give a slot back to cache `i`. -/
def freeTo (i : Fin 8) (ptr : ℕ) : Code (Heap π) Unit :=
  onCache i (Cache.onCache (Cache.free (Item.bytes i) ptr))

/-- A small layout goes to one cache, both ways. -/
theorem exists_cache (hsize : layout.size ≠ 0) (hsmall : layout.padToAlign.size ≤ maxSize) :
    ∃ i : Fin 8, orderOf layout = i.val + 3 ∧ ∀ s : Heap π,
      (cacheIdx (i.val + 3)).run s = .ok i s ∧
      (GlobalAllocator.allocate pm layout).run s = (reserveFrom pm i).run s ∧
      ∀ ptr, (GlobalAllocator.deallocate pm ptr layout).run s = (freeTo i ptr).run s := by
  obtain ⟨i, horder, hidx⟩ := exists_cacheIdx π hsize hsmall
  have hzst : allocateIfZst layout = none := if_pos hsize
  have hzst' : ∀ ptr, deallocateIfZst ptr layout = false := fun ptr => by
    simp [deallocateIfZst, hsize]
  refine ⟨i, horder, fun s => ⟨horder ▸ hidx s, ?_, fun ptr => ?_⟩⟩
  · rw [GlobalAllocator.allocate, if_pos hsmall, allocate, hzst]
    simp only
    rw [Code.bind_ok (slotOrder_run layout s), Code.bind_ok (hidx s)]
    rfl
  · rw [GlobalAllocator.deallocate, if_pos hsmall, deallocate, hzst']
    refine (Code.bind_ok (slotOrder_run layout s)).trans ?_
    rw [Code.bind_ok (hidx s)]
    rfl

end SlabAllocator

/-! ## The slab pages -/

/-- The slab pages of the heap: those of cache `i` are `idle i` and `busy i`. -/
structure Stock where
  idle : Fin 8 → List ℕ
  busy : Fin 8 → List ℕ

namespace Stock

variable (k : Stock) {i j : Fin 8} {idle busy : List ℕ} {out out' : List Extent}

def pages (i : Fin 8) : List ℕ := k.idle i ++ k.busy i

/-- The caches that hold these pages. -/
def caches (i : Fin 8) : UntypedCache := Cache.shape (Item.bytes i) (k.idle i) (k.busy i)

/-- Change the pages of one cache. -/
def set (i : Fin 8) (idle busy : List ℕ) : Stock :=
  ⟨Function.update k.idle i idle, Function.update k.busy i busy⟩

theorem caches_set : (k.set i idle busy).caches
    = Function.update k.caches i (Cache.shape (Item.bytes i) idle busy) := by
  funext j
  by_cases h : j = i
  · subst h
    simp only [caches, set, Function.update_self]
  · simp only [caches, set, Function.update_of_ne h]

theorem pages_set : (k.set i idle busy).pages = Function.update k.pages i (idle ++ busy) := by
  funext j
  by_cases h : j = i
  · subst h
    simp only [pages, set, Function.update_self]
  · simp only [pages, set, Function.update_of_ne h]

variable {k}

/-- A busy page stays busy if its cache keeps it. -/
theorem mem_busy_set {a : ℕ} (h : a ∈ k.busy j) (hkeep : j = i → a ∈ busy) :
    a ∈ (k.set i idle busy).busy j := by
  by_cases hji : j = i
  · subst hji
    simp only [set, Function.update_self]
    exact hkeep rfl
  · simp only [set, Function.update_of_ne hji]
    exact h

/-- A page that is no slab stays so if the cache does not get it. -/
theorem not_mem_pages_set {a : ℕ} (h : ∀ j, a ∉ k.pages j) (hnew : a ∉ idle ++ busy) :
    ∀ j, a ∉ (k.set i idle busy).pages j := by
  rw [pages_set]
  exact (Function.forall_update_iff k.pages fun _ pages => a ∉ pages).mpr ⟨hnew, fun j _ => h j⟩

variable (k)

/-- Each page is a block that is out, and belongs to one cache. -/
structure Ok (out : List Extent) : Prop where
  page : ∀ i, ∀ a ∈ k.pages i, ∃ e ∈ out, e.base = a ∧ 4096 ≤ e.size
  nodup : ∀ i, (k.pages i).Nodup
  owner : ∀ i j a, a ∈ k.pages i → a ∈ k.pages j → i = j

variable {k}

/-- The pages of a cache may be moved, and a page that no cache has may come in. -/
theorem Ok.set (h : k.Ok out) (hsub : ∀ e ∈ out, e ∈ out') (hnodup : (idle ++ busy).Nodup)
    (hmem : ∀ a ∈ idle ++ busy, a ∈ k.pages i ∨
      (∃ e ∈ out', e.base = a ∧ 4096 ≤ e.size) ∧ ∀ j, a ∉ k.pages j) :
    (k.set i idle busy).Ok out' := by
  have hpage : ∀ j, ∀ a ∈ k.pages j, ∃ e ∈ out', e.base = a ∧ 4096 ≤ e.size := fun j a ha => by
    obtain ⟨e, he, hbase⟩ := h.page j a ha
    exact ⟨e, hsub e he, hbase⟩
  -- a page of cache `i` is not one of another cache
  have howner : ∀ j, j ≠ i → ∀ a ∈ idle ++ busy, a ∉ k.pages j := fun j hj a ha hother => by
    rcases hmem a ha with hold | ⟨-, hnew⟩
    · exact hj (h.owner j i a hother hold)
    · exact hnew j hother
  refine ⟨?_, ?_, fun j l a => ?_⟩
  · rw [pages_set]
    exact (Function.forall_update_iff k.pages fun _ pages => ∀ a ∈ pages,
      ∃ e ∈ out', e.base = a ∧ 4096 ≤ e.size).mpr
        ⟨fun a ha => (hmem a ha).elim (hpage i a) (·.1), fun j _ => hpage j⟩
  · rw [pages_set]
    exact (Function.forall_update_iff k.pages fun _ pages => pages.Nodup).mpr
      ⟨hnodup, fun j _ => h.nodup j⟩
  · rw [pages_set]
    by_cases hji : j = i <;> by_cases hli : l = i
    · exact fun _ _ => hji.trans hli.symm
    · rw [hji, Function.update_self, Function.update_of_ne hli]
      exact fun hj hl => absurd hl (howner l hli a hj)
    · rw [hli, Function.update_self, Function.update_of_ne hji]
      exact fun hj hl => absurd hj (howner j hji a hl)
    · rw [Function.update_of_ne hji, Function.update_of_ne hli]
      exact h.owner j l a

theorem Ok.mono (h : k.Ok out) (hsub : ∀ i, ∀ a ∈ k.pages i, ∀ e ∈ out, e.base = a → e ∈ out') :
    k.Ok out' := by
  refine ⟨fun i a ha => ?_, h.nodup, h.owner⟩
  obtain ⟨e, he, hbase, hsize⟩ := h.page i a ha
  exact ⟨e, hsub i a ha e he hbase, hbase, hsize⟩

end Stock

/-! ## The invariant -/

/-- A block that is out, with the layout it was asked for with. -/
structure Allocation where
  bytes : Extent
  layout : Layout
  deriving DecidableEq

namespace Allocation

/-- The slab allocator serves it. -/
def Small (l : Allocation) : Prop := l.layout.padToAlign.size ≤ SlabAllocator.maxSize

/-- The page its first byte lies in. -/
def page (l : Allocation) : ℕ := Slab.fromElemPtr l.bytes.base

/-- What is out after a call with this result. -/
def after (layout : Layout) (live : List Allocation) : Option Extent → List Allocation
  | none => live
  | some bytes => ⟨bytes, layout⟩ :: live

end Allocation

namespace Heap

open PageAllocator

variable {π : Type} {pm : PhysMem π} {Out : π → List Extent → Prop} {s : Heap π}
  {live : List Allocation} {l : Allocation} {k : Stock} {out : List Extent} {layout : Layout}
  {i : Fin 8} {a : ℕ} {p' : π}

/-- The slot a busy page of cache `i` gives. -/
def slotOf (i : Fin 8) (a : ℕ) : Extent :=
  ⟨Slab.firstSlot (Item.bytes i) a, (Item.bytes i).layout.size⟩

/-- A small block is the slot of a busy page; a large block is handed out as it is, and is no
slab page; and no two blocks begin in one page. -/
structure Inv (Out : π → List Extent → Prop) (s : Heap π) (live : List Allocation) (k : Stock)
    (out : List Extent) : Prop where
  caches : s.caches = k.caches
  mapped : Mapped Out s.phys out
  stock : k.Ok out
  small : ∀ l ∈ live, l.Small → ∃ i : Fin 8, SlabAllocator.orderOf l.layout = i.val + 3 ∧
    l.page ∈ k.busy i ∧ l.bytes = slotOf i l.page
  large : ∀ l ∈ live, ¬ l.Small → l.bytes ∈ out ∧ l.bytes.base = l.page ∧
    Usize.roundUp l.layout.size 4096 ≤ l.bytes.size ∧ ∀ i, l.page ∉ k.pages i
  sized : ∀ l ∈ live, l.layout.size ≠ 0
  distinct : live.Pairwise fun l m => l.page ≠ m.page

/-- A slot lies in its page, behind the header. -/
theorem slotOf_inside (i : Fin 8) (a : ℕ) : (slotOf i a).base + (slotOf i a).size ≤ a + 4096 ∧
    a + slabBufStart ≤ (slotOf i a).base := by
  have hfit := (Item.bytes i).slots_fit
  have hsize : (Item.bytes i).layout.size ≤ (Item.bytes i).layout.slotSize := Usize.le_roundUp _ _
  have hbuf : slabBufSize = 4013 := rfl
  have hstart : slabBufStart = 82 := rfl
  simp only [slotOf, Slab.firstSlot]
  omega

namespace Inv

theorem aligned (hpm : pm.Lawful Out) (h : Inv Out s live k out) (ha : a ∈ k.pages i) :
    4096 ∣ a := by
  obtain ⟨e, he, rfl, -⟩ := h.stock.page i a ha
  exact (h.mapped.pages hpm he).1

/-- Every block lies inside one that is out and starts at its page. -/
theorem home (h : Inv Out s live k out) (hl : l ∈ live) :
    ∃ e ∈ out, e.base = l.page ∧ l.bytes.Inside e := by
  by_cases hs : l.Small
  · obtain ⟨i, -, hbusy, hbytes⟩ := h.small l hl hs
    obtain ⟨e, he, hbase, hsize⟩ := h.stock.page i l.page (List.mem_append_right _ hbusy)
    obtain ⟨hend, hstart⟩ := slotOf_inside i l.page
    refine ⟨e, he, hbase, ?_⟩
    rw [hbytes]
    exact .of_le (by omega) (by omega)
  · obtain ⟨hmem, hbase, -⟩ := h.large l hl hs
    exact ⟨l.bytes, hmem, hbase, .refl _⟩

/-- Blocks do not overlap. -/
theorem disjoint (hpm : pm.Lawful Out) (h : Inv Out s live k out) :
    live.Pairwise fun l m => l.bytes.Disjoint m.bytes := by
  refine h.distinct.imp_of_mem fun {l m} hl hm hne => ?_
  obtain ⟨e, he, hbase, hin⟩ := h.home hl
  obtain ⟨f, hf, hbase', hin'⟩ := h.home hm
  exact (h.mapped.disjoint_of_ne hpm he hf (by rw [hbase, hbase']; exact hne)).mono hin hin'

/-- A block does not overlap the header of a slab. -/
theorem disjoint_header (hpm : pm.Lawful Out) (h : Inv Out s live k out) (hl : l ∈ live)
    (ha : a ∈ k.pages i) : l.bytes.Disjoint ⟨a, slabBufStart⟩ := by
  by_cases hpage : l.page = a
  · -- in a slab page there are only slots, and they lie behind the header
    by_cases hs : l.Small
    · obtain ⟨j, -, -, hbytes⟩ := h.small l hl hs
      have hstart := (slotOf_inside j l.page).2
      rw [hbytes, hpage]
      rw [hpage] at hstart
      exact Extent.Disjoint.symm (.of_le hstart)
    · exact absurd (hpage ▸ ha) ((h.large l hl hs).2.2.2 i)
  · obtain ⟨e, he, hbase, hin⟩ := h.home hl
    obtain ⟨f, hf, hbase', hsize⟩ := h.stock.page i a ha
    refine (h.mapped.disjoint_of_ne hpm he hf (by rw [hbase, hbase']; exact hpage)).mono hin ?_
    have hstart : slabBufStart = 82 := rfl
    exact .of_le hbase'.le (by simp only; omega)

/-- A block is as large as its layout asks. -/
theorem fits (h : Inv Out s live k out) (hl : l ∈ live) : l.layout.size ≤ l.bytes.size := by
  by_cases hs : l.Small
  · obtain ⟨i, horder, -, hbytes⟩ := h.small l hl hs
    have hsize : (slotOf i l.page).size = 2 ^ (i.val + 3) := rfl
    rw [hbytes, hsize, ← horder]
    exact SlabAllocator.size_le_orderOf l.layout
  · exact (Usize.le_roundUp _ _).trans (h.large l hl hs).2.2.1

/-! ### One step -/

/-- No block begins in an idle page. -/
theorem page_ne_of_idle (h : Inv Out s live k out) (hl : l ∈ live) (ha : a ∈ k.idle i) :
    l.page ≠ a := fun hpage => by
  have hmem : a ∈ k.pages i := List.mem_append_left _ ha
  by_cases hs : l.Small
  · obtain ⟨j, -, hbusy, -⟩ := h.small l hl hs
    rw [hpage] at hbusy
    obtain rfl := h.stock.owner j i a (List.mem_append_right _ hbusy) hmem
    exact (List.nodup_append.mp (h.stock.nodup j)).2.2 a ha a hbusy rfl
  · exact (h.large l hl hs).2.2.2 i (hpage ▸ hmem)

/-- No block and no slab is where a new block is. -/
theorem page_ne_of_fresh (hpm : pm.Lawful Out) (h : Inv Out s live k out) {e : Extent}
    (he : Mapped Out p' (e :: out)) (hl : l ∈ live) : l.page ≠ e.base := by
  obtain ⟨f, hf, hbase, -⟩ := h.home hl
  exact hbase ▸ he.fresh hpm hf

theorem not_mem_pages_of_fresh (hpm : pm.Lawful Out) (h : Inv Out s live k out) {e : Extent}
    (he : Mapped Out p' (e :: out)) (i : Fin 8) : e.base ∉ k.pages i := fun hmem => by
  obtain ⟨f, hf, hbase, -⟩ := h.stock.page i _ hmem
  exact he.fresh hpm hf hbase

/-- A page becomes busy. -/
theorem addSmall (h : Inv Out s live k out) {idle : List ℕ} {out' : List Extent}
    (hmapped : Mapped Out p' out') (hsub : ∀ e ∈ out, e ∈ out')
    (hidle : ∀ b ∈ idle, b ∈ k.idle i) (hstock : (k.set i idle (a :: k.busy i)).Ok out')
    (hne : ∀ l ∈ live, l.page ≠ a) (haligned : 4096 ∣ a) (hsize : layout.size ≠ 0)
    (hsmall : layout.padToAlign.size ≤ SlabAllocator.maxSize)
    (horder : SlabAllocator.orderOf layout = i.val + 3) :
    Inv Out ⟨p', (k.set i idle (a :: k.busy i)).caches⟩ (⟨slotOf i a, layout⟩ :: live)
      (k.set i idle (a :: k.busy i)) out' := by
  have hpage : (⟨slotOf i a, layout⟩ : Allocation).page = a :=
    Cache.fromElemPtr_firstSlot haligned
  refine ⟨rfl, hmapped, hstock, List.forall_mem_cons.mpr ⟨fun _ => ?_, fun l hl hs => ?_⟩,
    List.forall_mem_cons.mpr ⟨fun hs => absurd hsmall hs, fun l hl hs => ?_⟩,
    List.forall_mem_cons.mpr ⟨hsize, h.sized⟩,
    List.pairwise_cons.mpr ⟨fun l hl => hpage.symm ▸ (hne l hl).symm, h.distinct⟩⟩
  · refine ⟨i, horder, ?_, by rw [hpage]⟩
    simp only [hpage, Stock.set, Function.update_self]
    exact List.mem_cons_self
  · obtain ⟨j, hord, hbusy, hbytes⟩ := h.small l hl hs
    exact ⟨j, hord, Stock.mem_busy_set hbusy fun hji => hji ▸ List.mem_cons_of_mem _ hbusy, hbytes⟩
  · obtain ⟨hmem, hbase, hfit, hapart⟩ := h.large l hl hs
    refine ⟨hsub _ hmem, hbase, hfit, Stock.not_mem_pages_set hapart fun hnew => ?_⟩
    rcases List.mem_append.mp hnew with hj | hj
    · exact hapart i (List.mem_append_left _ (hidle _ hj))
    · rcases List.mem_cons.mp hj with hj | hj
      · exact hne l hl hj
      · exact hapart i (List.mem_append_right _ hj)

/-- A block of whole pages comes in. -/
theorem addLarge (hpm : pm.Lawful Out) (h : Inv Out s live k out) {e : Extent}
    (he : Mapped Out p' (e :: out)) (hsize : layout.size ≠ 0)
    (hlarge : ¬ layout.padToAlign.size ≤ SlabAllocator.maxSize)
    (hfit : Usize.roundUp layout.size 4096 ≤ e.size) :
    Inv Out ⟨p', k.caches⟩ (⟨e, layout⟩ :: live) k (e :: out) := by
  have hpage : (⟨e, layout⟩ : Allocation).page = e.base := by
    have halign : PageSize.small.align = 4096 := rfl
    have hmod := Nat.mod_eq_zero_of_dvd (he.pages hpm List.mem_cons_self).1
    rw [Allocation.page, Slab.fromElemPtr, halign, hmod, Nat.sub_zero]
  have hapart : ∀ i, (⟨e, layout⟩ : Allocation).page ∉ k.pages i := fun i => by
    rw [hpage]; exact h.not_mem_pages_of_fresh hpm he i
  refine ⟨rfl, he, h.stock.mono fun _ _ _ f hf _ => List.mem_cons_of_mem _ hf,
    List.forall_mem_cons.mpr ⟨fun hs => absurd hs hlarge, h.small⟩,
    List.forall_mem_cons.mpr ⟨fun _ => ⟨List.mem_cons_self, hpage.symm, hfit, hapart⟩,
      fun l hl hs => ?_⟩,
    List.forall_mem_cons.mpr ⟨hsize, h.sized⟩,
    List.pairwise_cons.mpr ⟨fun l hl => ?_, h.distinct⟩⟩
  · obtain ⟨hmem, hrest⟩ := h.large l hl hs
    exact ⟨List.mem_cons_of_mem _ hmem, hrest⟩
  · rw [hpage]
    exact (h.page_ne_of_fresh hpm he hl).symm

/-- No other block begins in the page of a block. -/
theorem page_ne_of_mem_erase (h : Inv Out s live k out) (hl : l ∈ live) {m : Allocation}
    (hm : m ∈ live.erase l) : m.page ≠ l.page := by
  have hsymm : ∀ {x y : Allocation}, x.page ≠ y.page → y.page ≠ x.page := fun hne => hne.symm
  have hpair := ((List.perm_cons_erase hl).pairwise_iff hsymm).mp h.distinct
  exact (List.rel_of_pairwise_cons hpair hm).symm

/-- A busy page becomes idle. -/
theorem removeSmall (h : Inv Out s live k out) (hl : l ∈ live) (hbusy : l.page ∈ k.busy i) :
    Inv Out ⟨s.phys, (k.set i (l.page :: k.idle i) ((k.busy i).erase l.page)).caches⟩ (live.erase l)
      (k.set i (l.page :: k.idle i) ((k.busy i).erase l.page)) out := by
  have hperm : (l.page :: k.idle i ++ (k.busy i).erase l.page).Perm (k.pages i) :=
    List.perm_middle.symm.trans ((List.perm_cons_erase hbusy).append_left _).symm
  have hmem : ∀ {m}, m ∈ live.erase l → m ∈ live := List.mem_of_mem_erase
  refine ⟨rfl, h.mapped, h.stock.set (fun _ he => he) (hperm.nodup_iff.mpr (h.stock.nodup i))
    fun b hb => .inl (hperm.mem_iff.mp hb), fun m hm hs => ?_, fun m hm hs => ?_,
    fun m hm => h.sized m (hmem hm), h.distinct.sublist List.erase_sublist⟩
  · obtain ⟨j, hord, hbusy', hbytes⟩ := h.small m (hmem hm) hs
    have hne := h.page_ne_of_mem_erase hl hm
    exact ⟨j, hord, Stock.mem_busy_set hbusy' fun hji =>
      (List.mem_erase_of_ne hne).mpr (hji ▸ hbusy'), hbytes⟩
  · obtain ⟨hout, hbase, hfit, hapart⟩ := h.large m (hmem hm) hs
    exact ⟨hout, hbase, hfit,
      Stock.not_mem_pages_set hapart fun hj => hapart i (hperm.mem_iff.mp hj)⟩

/-- A block of whole pages goes. -/
theorem removeLarge (h : Inv Out s live k out) (hl : l ∈ live) (hs : ¬ l.Small)
    (hmapped : Mapped Out p' (out.erase l.bytes)) :
    Inv Out ⟨p', k.caches⟩ (live.erase l) k (out.erase l.bytes) := by
  obtain ⟨-, hbase, -, hapart⟩ := h.large l hl hs
  have hmem : ∀ {m}, m ∈ live.erase l → m ∈ live := List.mem_of_mem_erase
  refine ⟨rfl, hmapped, h.stock.mono fun i b hb e he heb => ?_, fun m hm => h.small m (hmem hm),
    fun m hm hsm => ?_, fun m hm => h.sized m (hmem hm), h.distinct.sublist List.erase_sublist⟩
  · refine (List.mem_erase_of_ne fun hel => hapart i ?_).mpr he
    rw [← hbase, ← hel, heb]
    exact hb
  · obtain ⟨hout, hbase', hrest⟩ := h.large m (hmem hm) hsm
    refine ⟨(List.mem_erase_of_ne fun hml => ?_).mpr hout, hbase', hrest⟩
    exact h.page_ne_of_mem_erase hl hm (by rw [← hbase', hml, hbase])

/-- Only the physical memory changed. -/
theorem refuse (h : Inv Out s live k out) (hmapped : Mapped Out p' out) :
    Inv Out ⟨p', k.caches⟩ live k out :=
  { h with caches := rfl, mapped := hmapped }

/-! ### The calls -/

theorem newBox_run (hpm : pm.Lawful Out) (h : Inv Out s live k out) :
    (∃ p', (Cache.newBox pm).run s.phys = .ok none p' ∧ Mapped Out p' out) ∨
    ∃ e p', (Cache.newBox pm).run s.phys = .ok (some e.base) p' ∧ Mapped Out p' (e :: out) ∧
      4096 ≤ e.size := by
  have hround : Usize.roundUp Cache.slabLayout.size 4096 = 4096 := by decide
  have hsize : Cache.slabLayout.size ≠ 0 := by decide
  have halign : Cache.slabLayout.align ∣ 4096 := by decide
  rcases PageAllocator.allocate_run hpm h.mapped hsize halign with
    ⟨p', hrun, hmapped⟩ | ⟨e, p', hrun, hmapped, hsize⟩
  · exact .inl ⟨p', by rw [Cache.newBox, Code.bind_ok hrun]; rfl, hmapped⟩
  · exact .inr ⟨e, p', by rw [Cache.newBox, Code.bind_ok hrun]; rfl, hmapped, hround ▸ hsize⟩

/-- The block a pointer to a slot of cache `i` stands for. -/
def slotBytes (i : Fin 8) (ptr : ℕ) : Extent := ⟨ptr, (Item.bytes i).layout.size⟩

/-- A cache takes a slot for a layout of its order. -/
theorem reserve_run (hpm : pm.Lawful Out) (h : Inv Out s live k out) (hsize : layout.size ≠ 0)
    (hsmall : layout.padToAlign.size ≤ SlabAllocator.maxSize)
    (horder : SlabAllocator.orderOf layout = i.val + 3) :
    ∃ res p' c' k' out',
      (Cache.reserve pm (Item.bytes i)).run ⟨s.phys, s.caches i⟩ = .ok res ⟨p', c'⟩ ∧
      Inv Out ⟨p', Function.update s.caches i c'⟩
        (Allocation.after layout live (res.map (slotBytes i))) k' out' := by
  have hnodup := h.stock.nodup i
  have hcache : s.caches i = Cache.shape (Item.bytes i) (k.idle i) (k.busy i) :=
    congrFun h.caches i
  rw [hcache, h.caches]
  cases hidle : k.idle i with
  | cons a idle =>
      have ha : a ∈ k.idle i := hidle ▸ List.mem_cons_self
      have hperm : (idle ++ a :: k.busy i).Perm (k.pages i) := by
        rw [Stock.pages, hidle]
        exact List.perm_middle
      have hstock := h.stock.set (i := i) (fun _ he => he) (hperm.nodup_iff.mpr hnodup)
        fun b hb => .inl (hperm.mem_iff.mp hb)
      refine ⟨_, _, _, k.set i idle (a :: k.busy i), out, Cache.reserve_idle, ?_⟩
      rw [← Stock.caches_set]
      exact h.addSmall h.mapped (fun _ he => he)
        (fun b hb => hidle ▸ List.mem_cons_of_mem _ hb) hstock
        (fun l hl => h.page_ne_of_idle hl ha) (h.aligned hpm (List.mem_append_left _ ha))
        hsize hsmall horder
  | nil =>
      rcases h.newBox_run hpm with ⟨p', hbox, hmapped⟩ | ⟨e, p', hbox, hmapped, hpage⟩
      · refine ⟨_, _, _, k, out, Cache.reserve_none hbox, ?_⟩
        rw [← hidle]
        exact (Function.update_eq_self i k.caches).symm ▸ h.refuse hmapped
      · have hfresh := h.not_mem_pages_of_fresh hpm hmapped
        have hmem : k.pages i = k.busy i := by rw [Stock.pages, hidle, List.nil_append]
        have hstock : (k.set i [] (e.base :: k.busy i)).Ok (e :: out) := h.stock.set
          (fun _ he => List.mem_cons_of_mem e he)
          (List.nodup_cons.mpr ⟨hmem ▸ hfresh i, hmem ▸ hnodup⟩)
          (List.forall_mem_cons.mpr ⟨.inr ⟨⟨e, List.mem_cons_self, rfl, hpage⟩, hfresh⟩,
            fun b hb => .inl (hmem ▸ hb)⟩)
        refine ⟨_, _, _, k.set i [] (e.base :: k.busy i), e :: out, Cache.reserve_newBox hbox, ?_⟩
        rw [← Stock.caches_set]
        exact h.addSmall hmapped (fun _ he => List.mem_cons_of_mem _ he) (by simp) hstock
          (fun l hl => h.page_ne_of_fresh hpm hmapped hl) (hmapped.pages hpm List.mem_cons_self).1
          hsize hsmall horder

/-- Every allocation returns, and keeps the invariant. -/
theorem allocate_run (hpm : pm.Lawful Out) (h : Inv Out s live k out) (hsize : layout.size ≠ 0)
    (halign : layout.align ∣ 4096) :
    ∃ res s' k' out', (GlobalAllocator.allocate pm layout).run s = .ok res s' ∧
      Inv Out s' (Allocation.after layout live res) k' out' := by
  by_cases hsmall : layout.padToAlign.size ≤ SlabAllocator.maxSize
  · obtain ⟨i, horder, hcalls⟩ := SlabAllocator.exists_cache pm hsize hsmall
    obtain ⟨res, p', c', k', out', hrun, hinv⟩ := h.reserve_run hpm hsize hsmall horder
    have hcache : (SlabAllocator.onCache i (Cache.reserve pm (Item.bytes i))).run s
        = .ok res ⟨p', Function.update s.caches i c'⟩ := SlabAllocator.onCache_ok hrun
    refine ⟨res.map (slotBytes i), _, k', out', ?_, hinv⟩
    rw [(hcalls s).2.1, SlabAllocator.reserveFrom, Code.bind_ok hcache]
    cases res <;> rfl
  · have hphys : ∀ {res p'}, (PageAllocator.allocate pm layout).run s.phys = .ok res p' →
        (GlobalAllocator.allocate pm layout).run s = .ok res ⟨p', k.caches⟩ := fun hrun => by
      rw [GlobalAllocator.allocate, if_neg hsmall, ← h.caches]
      exact Code.zoom_ok hrun
    rcases PageAllocator.allocate_run hpm h.mapped hsize halign with
      ⟨p', hrun, hmapped⟩ | ⟨e, p', hrun, hmapped, hfit⟩
    · exact ⟨none, _, k, out, hphys hrun, h.refuse hmapped⟩
    · exact ⟨some e, _, k, e :: out, hphys hrun, h.addLarge hpm hmapped hsize hsmall hfit⟩

/-- Every deallocation returns, and keeps the invariant. -/
theorem deallocate_run (hpm : pm.Lawful Out) (h : Inv Out s live k out) (hl : l ∈ live) :
    ∃ s' k' out', (GlobalAllocator.deallocate pm l.bytes.base l.layout).run s = .ok () s' ∧
      Inv Out s' (live.erase l) k' out' := by
  have hsize := h.sized l hl
  by_cases hs : l.layout.padToAlign.size ≤ SlabAllocator.maxSize
  · obtain ⟨i, horder, hbusy, hbytes⟩ := h.small l hl hs
    obtain ⟨j, horder', hcalls⟩ := SlabAllocator.exists_cache pm hsize hs
    obtain rfl : i = j := Fin.ext (by omega)
    have hnodup := List.nodup_append.mp (h.stock.nodup i)
    have hcache : s.caches i = Cache.shape (Item.bytes i) (k.idle i) (k.busy i) :=
      congrFun h.caches i
    have hfree := Cache.free_busy (T := Item.bytes i)
      (h.aligned hpm (List.mem_append_right _ hbusy))
      (fun hidle => hnodup.2.2 _ hidle _ hbusy rfl) hbusy hnodup.2.1
    have hbase : l.bytes.base = Slab.firstSlot (Item.bytes i) l.page := congrArg Extent.base hbytes
    rw [← hbase, ← hcache] at hfree
    refine ⟨_, _, out, ?_, h.removeSmall hl hbusy⟩
    rw [(hcalls s).2.2, Stock.caches_set, ← h.caches]
    exact SlabAllocator.onCache_ok (Code.zoom_ok hfree)
  · obtain ⟨hmem, -, hfit, -⟩ := h.large l hl hs
    obtain ⟨p', hrun, hmapped⟩ := PageAllocator.deallocate_run hpm h.mapped hmem hsize hfit
    refine ⟨⟨p', k.caches⟩, k, _, ?_, h.removeLarge hl hs hmapped⟩
    rw [GlobalAllocator.deallocate, if_neg hs, ← h.caches]
    exact Code.zoom_ok hrun

end Inv

/-! ## Runs -/

/-- A run of the heap from the physical memory `p₀`, with what is out. -/
inductive Run (pm : PhysMem π) (p₀ : π) : List Allocation → Heap π → Prop
  | new : Run pm p₀ [] (Heap.new p₀)
  | allocate {live : List Allocation} {s s' : Heap π} {layout : Layout} {res : Option Extent}
      (before : Run pm p₀ live s) (size : layout.size ≠ 0) (align : layout.align ≤ 4096)
      (run : (GlobalAllocator.allocate pm layout).run s = .ok res s') :
      Run pm p₀ (Allocation.after layout live res) s'
  | deallocate {live : List Allocation} {s s' : Heap π} {l : Allocation}
      (before : Run pm p₀ live s) (mem : l ∈ live)
      (run : (GlobalAllocator.deallocate pm l.bytes.base l.layout).run s = .ok () s') :
      Run pm p₀ (live.erase l) s'

theorem Inv.new {p₀ : π} {out₀ : List Extent} (h : Out p₀ out₀) :
    ∃ out, Inv Out (Heap.new p₀) [] ⟨fun _ => [], fun _ => []⟩ out :=
  ⟨_, rfl, ⟨out₀, h, rfl⟩, ⟨by simp [Stock.pages], by simp [Stock.pages], by simp [Stock.pages]⟩,
    by simp, by simp, by simp, .nil⟩

theorem Run.inv {p₀ : π} {out₀ : List Extent} (hpm : pm.Lawful Out) (h₀ : Out p₀ out₀)
    (h : Run pm p₀ live s) : ∃ k out, Inv Out s live k out := by
  induction h with
  | new =>
      obtain ⟨out, hinv⟩ := Inv.new h₀
      exact ⟨_, out, hinv⟩
  | allocate _ size align run ih =>
      obtain ⟨k, out, hinv⟩ := ih
      obtain ⟨res, s', k', out', hrun, hinv'⟩ :=
        hinv.allocate_run hpm size (Layout.align_dvd_page _ align)
      cases hrun.symm.trans run
      exact ⟨k', out', hinv'⟩
  | deallocate _ mem run ih =>
      obtain ⟨k, out, hinv⟩ := ih
      obtain ⟨s', k', out', hrun, hinv'⟩ := hinv.deallocate_run hpm mem
      cases hrun.symm.trans run
      exact ⟨k', out', hinv'⟩

/-- The slabs of a cache lie in its pages. -/
theorem Inv.slab_page (h : Inv Out s live k out) {slab : UntypedSlab}
    (hslab : slab ∈ (s.caches i).slabs) : slab.addr ∈ k.pages i := by
  rw [h.caches, Stock.caches, UntypedCache.slabs, Cache.shape, List.nil_append,
    List.mem_append] at hslab
  refine List.mem_append.mpr (hslab.imp (fun hm => ?_) fun hm => ?_) <;>
  · obtain ⟨a, ha, rfl⟩ := List.mem_map.mp hm
    exact ha

/-- What the heap has handed out does not overlap, neither with itself nor with the headers of
the slabs; each block is as large as its layout asks; and no call stops the kernel. -/
theorem live_blocks_disjoint {p₀ : π} {out₀ : List Extent} (hpm : pm.Lawful Out)
    (h₀ : Out p₀ out₀) (h : Run pm p₀ live s) :
    (live.Pairwise fun l m => l.bytes.Disjoint m.bytes) ∧
    (∀ l ∈ live, l.layout.size ≤ l.bytes.size) ∧
    (∀ l ∈ live, ∀ i, ∀ slab ∈ (s.caches i).slabs,
      l.bytes.Disjoint ⟨slab.addr, slabBufStart⟩) ∧
    (∀ layout : Layout, layout.size ≠ 0 → layout.align ≤ 4096 →
      ∃ res s', (GlobalAllocator.allocate pm layout).run s = .ok res s') ∧
    ∀ l ∈ live, ∃ s', (GlobalAllocator.deallocate pm l.bytes.base l.layout).run s = .ok () s' := by
  obtain ⟨k, out, hinv⟩ := h.inv hpm h₀
  refine ⟨hinv.disjoint hpm, fun l hl => hinv.fits hl, fun l hl i slab hslab =>
    hinv.disjoint_header hpm hl (hinv.slab_page hslab), fun layout hsize halign => ?_,
    fun l hl => ?_⟩
  · obtain ⟨res, s', -, -, hrun, -⟩ := hinv.allocate_run hpm hsize (layout.align_dvd_page halign)
    exact ⟨res, s', hrun⟩
  · obtain ⟨s', -, -, hrun, -⟩ := hinv.deallocate_run hpm hl
    exact ⟨s', hrun⟩

/-- Two allocations over four free frames: 8 bytes, and 2000 bytes. -/
def twoCalls : Code (Heap PhysicalMemoryRecord) (Option Extent × Option Extent) := do
  let small ← GlobalAllocator.allocate PhysicalMemoryRecord.physMem
    ⟨8, 8, Layout.align_word, by decide⟩
  let large ← GlobalAllocator.allocate PhysicalMemoryRecord.physMem
    ⟨2000, 8, Layout.align_word, by decide⟩
  return (small, large)

/-- They get the first slot of a slab page, and the page after it. -/
theorem twoCalls_run : ∃ s, Run PhysicalMemoryRecord.physMem
    (PhysicalMemoryRecord.fourFrames [9, 9, 9, 9] [3, 2, 2, 1, 1, 1, 1, 0])
    [⟨⟨0xFFFF888000201000, 4096⟩, ⟨2000, 8, Layout.align_word, by decide⟩⟩,
      ⟨⟨0xFFFF888000200058, 8⟩, ⟨8, 8, Layout.align_word, by decide⟩⟩] s := by
  have hvalue : twoCalls.value (Heap.new (.fourFrames [9, 9, 9, 9] [3, 2, 2, 1, 1, 1, 1, 0]))
      = some (some ⟨0xFFFF888000200058, 8⟩, some ⟨0xFFFF888000201000, 4096⟩) := by decide +kernel
  obtain ⟨s, hrun⟩ := Code.exists_run_of_value hvalue
  obtain ⟨small, s₁, hsmall, hrun⟩ := Code.bind_eq_ok.mp hrun
  obtain ⟨large, s₂, hlarge, hrun⟩ := Code.bind_eq_ok.mp hrun
  cases hrun
  exact ⟨s,
    .allocate (.allocate .new (by decide) (by decide) hsmall) (by decide) (by decide) hlarge⟩

theorem live_blocks_disjoint_twoCalls : ∃ s, Run PhysicalMemoryRecord.physMem
    (PhysicalMemoryRecord.fourFrames [9, 9, 9, 9] [3, 2, 2, 1, 1, 1, 1, 0])
    [⟨⟨0xFFFF888000201000, 4096⟩, ⟨2000, 8, Layout.align_word, by decide⟩⟩,
      ⟨⟨0xFFFF888000200058, 8⟩, ⟨8, 8, Layout.align_word, by decide⟩⟩] s ∧
    Extent.Disjoint ⟨0xFFFF888000201000, 4096⟩ ⟨0xFFFF888000200058, 8⟩ := by
  obtain ⟨s, hrun⟩ := twoCalls_run
  have hout :
      PhysicalMemoryRecord.HandedOut (.fourFrames [9, 9, 9, 9] [3, 2, 2, 1, 1, 1, 1, 0]) [] :=
    ⟨_, _, [], [], PhysicalMemoryRecord.fourFrames_ready, .start, rfl⟩
  have hsafe := live_blocks_disjoint PhysicalMemoryRecord.physMem_lawful hout hrun
  exact ⟨s, hrun, List.rel_of_pairwise_cons hsafe.1 (List.mem_singleton_self _)⟩

end Heap

end Koe
