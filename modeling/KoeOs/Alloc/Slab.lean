/-
# `KoeOs.Alloc.Slab` — `src/mem/alloc/slab.rs`

Slots of one size, cut from pages.  A slab is a page with a header in front:

    | link 16 | bitmap 64 | free_cnt 2 | padding | slot | slot | …

A bit of the bitmap is set while its slot is free.  A cache keeps its slabs on three
lists by how full they are, and there is a cache for each size of 8, 16, …, 1024
bytes.  The slab a pointer belongs to is found by rounding the pointer down to a
page.

The lists own the slabs, so here they hold them.  A pointer to a slab is followed by
looking for the slab on the lists of its cache; if there is none, the contract of
`free` is broken and nothing is said about what follows.
-/
import KoeOs.Alloc.Page
import Mathlib.Logic.Function.Basic

namespace Koe

/-! ## Items -/

/-- `offset_of!(UntypedSlab, buf)`: the link, the bitmap and `free_cnt`. -/
def slabBufStart : ℕ := 16 + 64 + 2

/-- `SLAB_MAP_LEN * usize::BITS`. -/
def slabMapBits : ℕ := 8 * 64

/-- `SLAB_BUF_SIZE`, which makes room for a mutex that is not there. -/
def slabBufSize : ℕ := PageSize.small.usize - 1 - 2 - 16 - 64

namespace Layout

/-- `SLOT_SIZE`. -/
def slotSize (t : Layout) : ℕ := t.padToAlign.size

/-- `SLOTS_START`. -/
def slotsStart (t : Layout) : ℕ := Usize.roundUp slabBufStart t.align - slabBufStart

/-- `SLOTS_LEN`. -/
def slotsLen (t : Layout) : ℕ := (slabBufSize - t.slotsStart) / t.slotSize

end Layout

/-- `Item`: what slots can hold.  A slab must have two slots, and a bit for each. -/
structure Item where
  layout : Layout
  two_le : 2 ≤ layout.slotsLen
  le_map : layout.slotsLen ≤ slabMapBits

/-- `[u8; 8]`, …, `[u8; 1024]`, by their order less `MIN_ORDER`. -/
def Item.bytes (i : Fin 8) : Item where
  layout :=
    ⟨2 ^ (i.val + 3), 2 ^ (i.val + 3), by rw [Nat.log2_two_pow], by revert i; decide +kernel⟩
  two_le := by revert i; decide +kernel
  le_map := by revert i; decide +kernel

/-! ## One slab -/

/-- A slab, by its address.  The link and the slots are not modelled. -/
structure UntypedSlab where
  addr : ℕ
  bitmap : List Bool
  freeCnt : ℕ
  deriving DecidableEq, Repr

inductive SlabFillLevel where
  | empty
  | partially
  | full
  deriving DecidableEq, Repr

/-- `fill_level`.  The source's second pattern is the name `SLOTS_LEN`, which is not in
scope there: it binds a new variable, matches every other count, and leaves nothing
for `Partial`. -/
def UntypedSlab.fillLevel (slab : UntypedSlab) : SlabFillLevel :=
  match slab.freeCnt with
  | 0 => .empty
  | _slotsLen => .full

def UntypedSlab.isEmpty (slab : UntypedSlab) : Bool := slab.fillLevel == .empty

def UntypedSlab.isFull (slab : UntypedSlab) : Bool := slab.fillLevel == .full

namespace Slab

variable {σ : Type} (T : Item)

/-- A slab in the page at `addr`, with every slot free. -/
def new (addr : ℕ) : UntypedSlab := ⟨addr, List.replicate slabMapBits true, T.layout.slotsLen⟩

/-- The bits that stand for a slot. -/
def map (slab : UntypedSlab) : List Bool := slab.bitmap.take T.layout.slotsLen

/-- Where the slots begin. -/
def slots (slab : UntypedSlab) : ℕ := slab.addr + slabBufStart + T.layout.slotsStart

/-- `&mut self.slots_mut()[idx]`.  The slice is made with `SLOT_SIZE` elements, not
`SLOTS_LEN`.  For slots of 64 bytes and more it runs past the page, against the contract of
`from_raw_parts_mut`; of the slice only the bounds check and the element are modelled. -/
def slot (slab : UntypedSlab) (idx : ℕ) : Code σ ℕ :=
  if idx < T.layout.slotSize then return slots T slab + idx * T.layout.slotSize
  else throw .bounds

/-- Take a free slot. -/
def reserve : Code UntypedSlab (Option ℕ) := do
  let slab ← get
  if slab.freeCnt = 0 then return none
  match (map T slab).findIdx? id with
  | none => throw .unwrapped
  | some idx =>
      Code.assert (idx < T.layout.slotsLen) ""
      set { slab with bitmap := slab.bitmap.set idx false, freeCnt := slab.freeCnt - 1 }
      let ptr ← slot T slab idx
      -- `NonNull::new`
      if ptr = 0 then return none else return some ptr

/-- Give a slot back. -/
def free (ptr : ℕ) : Code UntypedSlab Unit := do
  let slab ← get
  let bufStart := slab.addr + slabBufStart
  Code.assert (0 < slab.freeCnt) ""
  Code.assert (bufStart ≤ ptr ∧ ptr < bufStart + slabBufSize) ""
  -- `offset_from` asks for a whole number of slots
  let offset : ℤ := ptr - slots T slab
  if offset % T.layout.slotSize ≠ 0 then throw .undefinedBehaviour
  let idx := Isize.toUsize (offset / T.layout.slotSize)
  match (map T slab)[idx]? with
  | none => throw .bounds
  | some bit =>
      Code.assert (!bit) ""
      modify fun slab => { slab with bitmap := slab.bitmap.set idx true }
      -- `free_cnt` is a `u16`
      if slab.freeCnt + 1 < 2 ^ 16 then modify fun slab => { slab with freeCnt := slab.freeCnt + 1 }
      else throw .overflow

/-- `from_elem_ptr`: the page a pointer lies in. -/
def fromElemPtr (ptr : ℕ) : ℕ := ptr - ptr % PageSize.small.align

end Slab

/-! ## A cache -/

/-- The slabs of one size. -/
structure UntypedCache where
  emptySlabs : List UntypedSlab
  partialSlabs : List UntypedSlab
  fullSlabs : List UntypedSlab
  deriving DecidableEq, Repr

namespace UntypedCache

def new : UntypedCache := ⟨[], [], []⟩

/-- The list for a fill level. -/
def list (c : UntypedCache) : SlabFillLevel → List UntypedSlab
  | .empty => c.emptySlabs
  | .partially => c.partialSlabs
  | .full => c.fullSlabs

def setList (c : UntypedCache) (level : SlabFillLevel) (slabs : List UntypedSlab) : UntypedCache :=
  match level with
  | .empty => { c with emptySlabs := slabs }
  | .partially => { c with partialSlabs := slabs }
  | .full => { c with fullSlabs := slabs }

/-- `list.push_front(slab)`. -/
def pushFront (c : UntypedCache) (level : SlabFillLevel) (slab : UntypedSlab) : UntypedCache :=
  c.setList level (slab :: c.list level)

/-- All slabs of the cache. -/
def slabs (c : UntypedCache) : List UntypedSlab := c.emptySlabs ++ c.partialSlabs ++ c.fullSlabs

/-- Write a slab where it lies. -/
def write (c : UntypedCache) (slab : UntypedSlab) : UntypedCache :=
  let put := List.map fun s => if s.addr = slab.addr then slab else s
  ⟨put c.emptySlabs, put c.partialSlabs, put c.fullSlabs⟩

end UntypedCache

/-- A cache and the physical memory behind it. -/
structure Backed (π : Type) where
  phys : π
  cache : UntypedCache

namespace Cache

variable {π α : Type} (pm : PhysMem π) (T : Item)

/-- Run code of the physical memory. -/
def onPhys (x : Code π α) : Code (Backed π) α :=
  Code.zoom Backed.phys (fun s phys => { s with phys }) x

/-- `Layout::new::<UnsafeCell<UntypedSlab>>()`. -/
def slabLayout : Layout := ⟨4096, 8, Layout.align_word, by decide⟩

/-- `BoxSlab::try_new_uninit_in(PageAllocator)`: a pointer to the page. -/
def newBox : Code π (Option ℕ) := do
  return (← PageAllocator.allocate pm slabLayout).map Extent.base

/-- Run code of the cache itself. -/
def onCache (x : Code UntypedCache α) : Code (Backed π) α :=
  Code.zoom Backed.cache (fun s cache => { s with cache }) x

/-- The first half of `reserve`: the list at whose front the cursor stands, the partial slabs or
else the empty ones.  If both are empty, a new slab goes to the empty ones. -/
def findSlab : Code (Backed π) (Option SlabFillLevel) := do
  let s ← get
  let level : SlabFillLevel := if s.cache.partialSlabs.isEmpty then .empty else .partially
  if (s.cache.list level).isEmpty then
    match ← onPhys (newBox pm) with
    | none => return none
    | some addr =>
        onCache (modify fun c => c.pushFront level (Slab.new T addr))
        return some level
  else return some level

/-- The second half of `reserve`: take a slot from the slab at the cursor, and move the slab. -/
def reserveFront (level : SlabFillLevel) : Code UntypedCache (Option ℕ) := do
  match (← get).list level with
  | [] => throw (.assertion "Cursor should now point to a valid slab")
  | slab :: rest =>
      let wasEmpty := slab.isEmpty
      let (ret, slab) ← Code.locally slab (Slab.reserve T)
      let isFull := slab.isFull
      if !wasEmpty && !isFull then
        modify fun c => c.setList level (slab :: rest)
        return ret
      modify fun c => c.setList level rest
      let dest : SlabFillLevel := if isFull then .full else .partially
      modify fun c => c.pushFront dest slab
      return ret

/-- Take a slot from a slab that has one, or from a new slab. -/
def reserve : Code (Backed π) (Option ℕ) := do
  match ← findSlab pm T with
  | none => return none
  | some level => onCache (reserveFront T level)

/-- Give a slot back to its slab. -/
def free (ptr : ℕ) : Code UntypedCache Unit := do
  let addr := Slab.fromElemPtr ptr
  match (← get).slabs.find? fun s => s.addr == addr with
  | none => throw .undefinedBehaviour
  | some slab =>
      let wasFull := slab.isFull
      let ((), slab) ← Code.locally slab (Slab.free T ptr)
      modify fun c => c.write slab
      let isEmpty := slab.isEmpty
      if !isEmpty && !wasFull then return ()
      -- `cursor_mut_from_ptr`: the slab must be on this list
      let src : SlabFillLevel := if wasFull then .full else .partially
      if ((← get).list src).any fun s => s.addr == addr then
        modify fun c => c.setList src ((c.list src).eraseP fun s => s.addr == addr)
        let dest : SlabFillLevel := if isEmpty then .empty else .partially
        modify fun c => c.pushFront dest slab
      else throw .undefinedBehaviour

end Cache

end Koe
