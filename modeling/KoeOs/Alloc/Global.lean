/-
# `KoeOs.Alloc.Global` — the heap: `src/mem/alloc.rs`

`GlobalAllocator` sends a layout whose size, padded to its alignment, is at most 1024
bytes to the slab allocator, and every other one to the page allocator.  A layout
decides by itself where it goes, so `deallocate` asks the same question again.
-/
import KoeOs.Alloc.Slab

namespace Koe

/-- The heap: a cache for each size, over the physical memory. -/
structure Heap (π : Type) where
  phys : π
  caches : Fin 8 → UntypedCache

/-- The heap before the first call. -/
def Heap.new {π : Type} (phys : π) : Heap π := ⟨phys, fun _ => .new⟩

namespace SlabAllocator

variable {π α : Type} (pm : PhysMem π)

/-- `SlabAllocator::MIN_ORDER`. -/
def minOrder : ℕ := 3

/-- `SlabAllocator::MAX_ORDER`. -/
def maxOrder : ℕ := 10

/-- `SlabAllocator::MAX_SIZE`. -/
def maxSize : ℕ := 1 <<< maxOrder

/-- Run code of the cache `i`. -/
def onCache (i : Fin 8) (x : Code (Backed π) α) : Code (Heap π) α :=
  Code.zoom (fun h => ⟨h.phys, h.caches i⟩)
    (fun h s => ⟨s.phys, Function.update h.caches i s.cache⟩) x

/-- The order of the slots for a layout. -/
def slotOrder (layout : Layout) : Code (Heap π) ℕ := do
  let size ← Usize.nextMultipleOf layout.padToAlign.size (1 <<< minOrder)
  Usize.ilog2 (← Usize.nextPowerOfTwo size)

/-- `self.caches[slot_order - MIN_ORDER]`: the cache for order `k` is at index `k - 3`, and
its items are `[u8; 1 << k]`. -/
def cacheIdx (slotOrder : ℕ) : Code (Heap π) (Fin 8) := do
  let idx ← Usize.sub slotOrder minOrder
  if h : idx < 8 then return ⟨idx, h⟩ else throw .bounds

/-- `Allocator::allocate`. -/
def allocate (layout : Layout) : Code (Heap π) (Option Extent) := do
  match allocateIfZst layout with
  | some bytes => return some bytes
  | none =>
      let i ← cacheIdx (← slotOrder layout)
      match ← onCache i (Cache.reserve pm (Item.bytes i)) with
      | none => return none
      | some ptr => return some ⟨ptr, (Item.bytes i).layout.size⟩

/-- `Allocator::deallocate`. -/
def deallocate (ptr : ℕ) (layout : Layout) : Code (Heap π) Unit := do
  if deallocateIfZst ptr layout then return ()
  let i ← cacheIdx (← slotOrder layout)
  onCache i (Cache.onCache (Cache.free (Item.bytes i) ptr))

end SlabAllocator

namespace GlobalAllocator

variable {π α : Type} (pm : PhysMem π)

/-- Run code of the physical memory. -/
def onPhys (x : Code π α) : Code (Heap π) α :=
  Code.zoom Heap.phys (fun h phys => { h with phys }) x

/-- `Allocator::allocate`. -/
def allocate (layout : Layout) : Code (Heap π) (Option Extent) :=
  if layout.padToAlign.size ≤ SlabAllocator.maxSize then SlabAllocator.allocate pm layout
  else onPhys (PageAllocator.allocate pm layout)

/-- `Allocator::deallocate`. -/
def deallocate (ptr : ℕ) (layout : Layout) : Code (Heap π) Unit :=
  if layout.padToAlign.size ≤ SlabAllocator.maxSize then SlabAllocator.deallocate ptr layout
  else onPhys (PageAllocator.deallocate pm ptr layout)

end GlobalAllocator

end Koe
