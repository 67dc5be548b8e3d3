/-
# `KoeOs.Phy.Memblock` — `src/mem/phy/memblock.rs`

The boot allocator.  It keeps the free and the reserved memory as two sorted
lists of blocks, and one partial block it hands memory out from:

    init      the available areas above the kernel; the last one becomes partial
    reserve   bump an offset inside the partial block; when the request does not
              fit, the whole block is reserved and the next free one is partial
    freeze    cut the partial block at the offset

`Memblocks` is sorted by first address, and no two of its blocks start at the
same one.  `binary_search` on such a list is given by where it splits the list:
the blocks that start lower, and the rest.

The kernel's end is a symbol of the linker, so it is a parameter.
-/
import KoeOs.Mem.Addr
import Mathlib.Data.List.Basic

namespace Koe

inductive MemTyp where
  | free
  | reserved
  deriving DecidableEq, Repr

/-- `multiboot2::MemoryAreaType`. -/
inductive MemoryAreaType where
  | available
  | reserved
  | acpiAvailable
  | reservedHibernate
  | defective
  | custom (id : ℕ)
  deriving DecidableEq, Repr

/-- An area of the boot loader's memory map. -/
structure MemoryArea where
  startAddress : ℕ
  size : ℕ
  typ : MemoryAreaType
  deriving DecidableEq, Repr

/-- An extent of memory. -/
@[ext] structure Memblock where
  base : Addr uma
  size : ℕ
  typ : MemTyp
  deriving DecidableEq, Repr

/-- `MEMBLOCKS_LEN`. -/
def memblocksLen : ℕ := 128

/-- A sorted array of blocks, with room for `memblocksLen`. -/
abbrev Memblocks := List Memblock

/-! ## Splitting a block into aligned pieces -/

/-- The iterator over the pieces of a block. -/
structure AlignedSplit where
  memblock : Memblock
  offset : ℕ
  maxOrder : ℕ
  deriving DecidableEq, Repr

namespace AlignedSplit

variable {σ : Type}

/-- The next piece, and the iterator after it. -/
def next (it : AlignedSplit) : Code σ (Option (Memblock × AlignedSplit)) := do
  if it.memblock.size ≤ it.offset then return none
  let offsetOrder := Usize.trailingZeros it.offset
  let diff := it.memblock.size - it.offset
  let diffOrder := Usize.bits - Usize.leadingZeros diff - 1
  let nextOrder := min (min offsetOrder diffOrder) it.maxOrder
  let nextSize := 1 <<< nextOrder
  let base ← it.memblock.base.byteAdd it.offset
  let offset ← Usize.add it.offset nextSize
  return some (⟨base, nextSize, it.memblock.typ⟩, { it with offset })

/-- `for piece in it`; each round moves the offset, so `fuel` bounds their number. -/
def forEach (body : Memblock → Code σ Unit) : ℕ → AlignedSplit → Code σ Unit
  | 0, _ => throw .outOfFuel
  | fuel + 1, it => do
      match ← it.next with
      | none => return ()
      | some (piece, it) =>
          body piece
          forEach body fuel it

end AlignedSplit

namespace Memblock

variable {σ : Type}

/-- An iterator over pieces whose size is a power of two from `2 ^ minOrder` to
`2 ^ maxOrder`.  The base moves up to `2 ^ minOrder` and the size does not shrink
with it. -/
def alignedSplit (m : Memblock) (minOrder maxOrder : ℕ) : Code σ AlignedSplit := do
  let minAlign := 1 <<< minOrder
  match m.base.alignCeil minAlign with
  | none => return ⟨m, m.size, maxOrder⟩
  | some base =>
      match (← base.byteAdd m.size).alignFloor minAlign with
      | none => return ⟨{ m with base }, m.size, maxOrder⟩
      | some stop =>
          match Isize.tryToUsize (← stop.addrSub base) with
          | none => return ⟨{ m with base }, m.size, maxOrder⟩
          | some size => return ⟨{ m with base, size }, 0, maxOrder⟩

/-- `Memblock::from(&area)`. -/
def ofArea (area : MemoryArea) : Code σ Memblock := do
  let typ := match area.typ with
    | .available => .free
    | .reserved | .acpiAvailable | .reservedHibernate | .defective | .custom _ => .reserved
  return ⟨← Addr.new area.startAddress, area.size, typ⟩

end Memblock

/-! ## Sorted lists of blocks -/

namespace Memblocks

variable {σ : Type}

/-- The blocks that start below `block`; `binary_search` reports their number. -/
def lower (data : Memblocks) (block : Memblock) : Memblocks :=
  data.takeWhile fun b => b.base < block.base

/-- The blocks that start at or above `block`. -/
def upper (data : Memblocks) (block : Memblock) : Memblocks :=
  data.dropWhile fun b => b.base < block.base

/-- `b` starts where `a` ends. -/
def meets (a b : Memblock) : Code σ Bool := do
  Code.assert (a.base ≤ b.base) ""
  return Isize.toUsize (← b.base.addrSub a.base) == a.size

/-- The neighbour before `block`, if the two merge. -/
def mergePrev (data : Memblocks) (block : Memblock) : Code σ (Option Memblock) := do
  match (data.lower block).getLast? with
  | none => return none
  | some prev => if ← meets prev block then return some prev else return none

/-- The neighbour after `block`, if the two merge. -/
def mergeNext (data : Memblocks) (block : Memblock) : Code σ (Option Memblock) := do
  match (data.upper block).head? with
  | none => return none
  | some next => if ← meets block next then return some next else return none

/-- Insert a block and merge it with the neighbours it touches; `false` if a block
starts at the same address. -/
def insert (block : Memblock) : Code Memblocks Bool := do
  let data ← get
  let lo := data.lower block
  let hi := data.upper block
  if hi.head?.map Memblock.base = some block.base then return false
  match ← data.mergePrev block, ← data.mergeNext block with
  | none, none =>
      if data.length < memblocksLen then set (lo ++ block :: hi) else throw .capacity
  | none, some next =>
      let size ← Usize.add next.size block.size
      set (lo ++ { next with base := block.base, size } :: hi.tail)
  | some prev, none =>
      let size ← Usize.add prev.size block.size
      set (lo.dropLast ++ { prev with size } :: hi)
  | some prev, some next =>
      let size ← Usize.add prev.size (← Usize.add next.size block.size)
      set (lo.dropLast ++ { prev with size } :: hi.tail)
  return true

/-- Take the last block. -/
def pop : Code Memblocks (Option Memblock) := do
  let data ← get
  set data.dropLast
  return data.getLast?

end Memblocks

/-! ## The boot allocator -/

/-- The boot memory. -/
structure MemblockSystem where
  freeBlocks : Memblocks
  reservedBlocks : Memblocks
  partialBlock : Option Memblock
  offset : ℕ
  managedRange : AddrRange uma
  isFrozen : Bool
  deriving DecidableEq, Repr

namespace MemblockSystem

variable {α σ : Type}

/-- Run code of the free blocks. -/
def onFree (x : Code Memblocks α) : Code MemblockSystem α :=
  Code.zoom MemblockSystem.freeBlocks (fun s freeBlocks => { s with freeBlocks }) x

/-- Run code of the reserved blocks. -/
def onReserved (x : Code Memblocks α) : Code MemblockSystem α :=
  Code.zoom MemblockSystem.reservedBlocks (fun s reservedBlocks => { s with reservedBlocks }) x

/-- What `init` has built after some of the areas. -/
structure Building where
  freeBlocks : Memblocks
  minAddr : Addr uma
  maxAddr : Addr uma
  deriving DecidableEq, Repr

/-- The part of an available area above the kernel; `None` if the area is skipped. -/
def aboveKernel (kernelEnd : Addr uma) (block : Memblock) : Code σ (Option Memblock) := do
  if block.typ = .reserved then return none
  let stop ← block.base.byteAdd block.size
  if stop < kernelEnd then return none
  let block ←
    if block.base < kernelEnd then do
      let cut := Isize.toUsize (← kernelEnd.addrSub block.base)
      pure { block with base := kernelEnd, size := ← Usize.sub block.size cut }
    else pure block
  if block.size = 0 then return none
  return some block

/-- The body of the loop of `init`.  What passes `aboveKernel` is free, so it goes
to `free_blocks`, and whether the insertion succeeded is not looked at. -/
def addArea (kernelEnd : Addr uma) (area : MemoryArea) : Code Building Unit := do
  let block ← Memblock.ofArea area
  match ← aboveKernel kernelEnd block with
  | none => return ()
  | some block =>
      let stop ← block.base.byteAdd block.size
      modify fun s =>
        { s with
          minAddr := ⟨min s.minAddr.value block.base.value⟩
          maxAddr := ⟨max s.maxAddr.value stop.value⟩ }
      let _ ← Code.zoom Building.freeBlocks (fun s freeBlocks => { s with freeBlocks })
        (Memblocks.insert block)

/-- Build the boot memory from the boot loader's areas. -/
def init (kernelEnd : Addr uma) (areas : List MemoryArea) : Code Building MemblockSystem := do
  let minAddr ← Addr.new (uma.stop - 1)
  let maxAddr ← Addr.new uma.start
  set ({ freeBlocks := [], minAddr, maxAddr } : Building)
  areas.forM (addArea kernelEnd)
  let s ← get
  Code.assert (s.minAddr < s.maxAddr) "No available memory"
  let size := Isize.toUsize (← s.maxAddr.addrSub s.minAddr)
  return {
    freeBlocks := s.freeBlocks.dropLast
    reservedBlocks := []
    partialBlock := s.freeBlocks.getLast?
    offset := 0
    managedRange := ⟨s.minAddr, size⟩
    isFrozen := false }

/-- `reserve`.  It calls itself once for each free block it takes, so `fuel`
bounds the depth. -/
def reserveLoop (layout : Layout) : ℕ → Code MemblockSystem (Option (Addr uma))
  | 0 => throw .outOfFuel
  | fuel + 1 => do
      let s ← get
      Code.assert (!s.isFrozen) ""
      match s.partialBlock with
      | none => return none
      | some partialBlock =>
          let base ← Usize.nextMultipleOf s.offset layout.align
          modify fun s => { s with offset := base }
          let offset ← Usize.add base layout.size
          modify fun s => { s with offset }
          if partialBlock.size < offset then
            let _ ← onReserved (Memblocks.insert partialBlock)
            let next ← onFree Memblocks.pop
            modify fun s => { s with partialBlock := next, offset := 0 }
            reserveLoop layout fuel
          else
            return some (← Addr.new base)

/-- Hand out memory for `layout`. -/
def reserve (layout : Layout) : Code MemblockSystem (Option (Addr uma)) := do
  reserveLoop layout ((← get).freeBlocks.length + 2)

/-- Split the partial block into a free and a reserved block. -/
def freeze : Code MemblockSystem Unit := do
  let s ← get
  Code.assert (!s.isFrozen) ""
  set { s with partialBlock := none }
  match s.partialBlock with
  | none => return ()
  | some partialBlock =>
      if s.offset = 0 then
        let _ ← onFree (Memblocks.insert partialBlock)
      -- cut partial block to reserved and free
      let freeBase ← partialBlock.base.byteAdd s.offset
      let freeSize ← Usize.sub partialBlock.size s.offset
      let _ ← onFree (Memblocks.insert ⟨freeBase, freeSize, .free⟩)
      let _ ← onReserved (Memblocks.insert ⟨partialBlock.base, s.offset, .reserved⟩)

end MemblockSystem

end Koe
