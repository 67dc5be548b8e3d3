/-
# `KoeOs.Phy.Record` — `PhysicalMemoryRecord` of `src/mem/phy.rs`

The page allocator: a buddy system over the frames of the managed range, and a
table with one entry per frame.  `deallocate_pages` is not told how large a block
is; it reads the order from the table entry of its first frame, where
`allocate_pages` has left it.

    new               take memory for the table and the buddy system from the boot
                      allocator, freeze it, and free what it left
    allocatePages     reserve a block, write its order
    deallocatePages   read the order, free the block, write 0

The table is memory nobody has written: its first content is a parameter.  Of a
frame only the order is modelled; the flags are never used.
-/
import KoeOs.Phy.Memblock
import KoeOs.Phy.Buddy

namespace Koe

/-- `FRAME_ORDER`. -/
def frameOrder : ℕ := PageSize.min.order

/-- `FRAME_SIZE`. -/
def frameSize : ℕ := PageSize.min.usize

/-- The table entry of a frame. -/
structure Frame where
  order : ℕ
  deriving DecidableEq, Repr

/-- Two bytes: the order and the flags. -/
def Frame.layout : Layout := ⟨2, 1, Layout.align_byte, by decide⟩

/-- The page allocator.  Its two records, the table of frames and the buffer of the forest, are
values here; in the source they are memory at `framesPtr` and at `buddy.map.ptr`. -/
structure PhysicalMemoryRecord where
  frames : List Frame
  /-- Where the table lies. -/
  framesPtr : ℕ
  base : PageAddr uma
  buddy : BuddySystem
  deriving DecidableEq

/-- `BootMemoryManager::allocate`, as a `core` allocator. -/
def bootAllocate (layout : Layout) : Code MemblockSystem (Option ℕ) := do
  match ← MemblockSystem.reserve layout with
  | none => return none
  | some paddr =>
      let vaddr ← p2v paddr
      -- `NonNull::new`
      if vaddr.value = 0 then return none else return some vaddr.value

namespace PhysicalMemoryRecord

variable {α σ : Type}

/-! ## Handing the boot memory over -/

/-- Free one aligned piece. -/
def freePiece (base : PageAddr uma) (aligned : Memblock) : Code BuddySystem Unit := do
  Code.assert (aligned.base.isAlignedTo frameSize) ""
  let idx := Isize.toUsize (← aligned.base.addrSub base.base) / frameSize
  let blockOrder := Usize.trailingZeros aligned.size
  let order ← Usize.sub blockOrder frameOrder
  BuddySystem.freeForced idx order

/-- Free one block of boot memory, piece by piece. -/
def freeBlock (base : PageAddr uma) (block : Memblock) : Code BuddySystem Unit := do
  let it ← block.alignedSplit frameOrder (buddyMaxOrder + frameOrder)
  it.forEach (freePiece base) (it.memblock.size + 1)

/-- Free all the boot memory that was left. -/
def populate (base : PageAddr uma) (freeBlocks : Memblocks) : Code BuddySystem Unit :=
  freeBlocks.forM (freeBlock base)

/-- The first half of `new`: take memory for the records, and freeze the boot
allocator. -/
def prepare (uninit : ℕ → Frame) : Code MemblockSystem PhysicalMemoryRecord := do
  let managedPages ← (← get).managedRange.overlappedPages .small
  let framesLayout ← Code.expect (Layout.array Frame.layout managedPages.len)
    "Frame layout should not be too large"
  let framesPtr ← Code.expect (← bootAllocate framesLayout) "Boot allocation should succeed"
  let frames := (List.range managedPages.len).map uninit
  let base := managedPages.base
  let buddy ← Code.expect (← BuddySystem.new frames.length bootAllocate)
    "Boot Allocator should not fail."
  MemblockSystem.freeze
  return { frames, framesPtr, base, buddy }

/-- Take the records over from the boot allocator. -/
def new (uninit : ℕ → Frame) : Code MemblockSystem PhysicalMemoryRecord := do
  let r ← prepare uninit
  let (_, buddy) ← Code.locally r.buddy (populate r.base (← get).freeBlocks)
  return { r with buddy }

/-! ## Pages -/

/-- Run code of the buddy system. -/
def onBuddy (x : Code BuddySystem α) : Code PhysicalMemoryRecord α :=
  Code.zoom PhysicalMemoryRecord.buddy (fun s buddy => { s with buddy }) x

/-- `self.frames[idx].order = order`. -/
def setOrder (idx order : ℕ) : Code PhysicalMemoryRecord Unit := do
  let s ← get
  if idx < s.frames.length then set { s with frames := s.frames.set idx ⟨order⟩ }
  else throw .bounds

/-- `self.frames[idx].order`. -/
def getOrder (idx : ℕ) : Code PhysicalMemoryRecord ℕ := do
  match (← get).frames[idx]? with
  | some frame => return frame.order
  | none => throw .bounds

/-- The index of the frame an address lies in. -/
def frameIdx (addr : Addr uma) : Code PhysicalMemoryRecord (Option ℕ) := do
  let s ← get
  match Isize.tryToUsize (← addr.addrSub s.base.base) with
  | none => return none
  | some byteOffset =>
      let idx := byteOffset >>> frameOrder
      if idx < s.frames.length then return some idx else return none

def allocatePages (cnt : ℕ) (pageSize : PageSize) :
    Code PhysicalMemoryRecord (Option (PageRange uma)) := do
  let frameCnt ← Usize.mul cnt (pageSize.usize / frameSize)
  let allocateCnt ← Usize.nextPowerOfTwo frameCnt
  let order ← Usize.ilog2 allocateCnt
  if (← get).buddy.maxOrder < order then return none
  match ← onBuddy (BuddySystem.reserve order) with
  | none => return none
  | some frameIdx =>
      setOrder frameIdx order
      let base ← Code.expect (← (← get).base.checkedPageAdd frameIdx)
        "index returned by buddy system should be correctly sized"
      let base ← PageAddr.new base.base pageSize
      return some ⟨base, allocateCnt >>> (pageSize.order - frameOrder)⟩

def deallocatePages (pages : PageRange uma) : Code PhysicalMemoryRecord Unit := do
  let idx ← Code.expect (← frameIdx pages.base.base) "pages should be valid when deallocating"
  let order ← getOrder idx
  onBuddy (BuddySystem.free idx order)
  setOrder idx 0

end PhysicalMemoryRecord

end Koe
