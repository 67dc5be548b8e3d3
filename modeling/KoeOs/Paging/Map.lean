/-
# `KoeOs.Paging.Map` — `X86_64MemoryMap` of `src/mem/paging.rs`

A memory map is the word that goes into `cr3`; everything else is in the page tables,
which all maps share.  A walker goes down from that word along a virtual address:

    try_down     to the next table, if there is one
    down         to the next table; a new one, if there is none
    translate    try_down until it stops, then what the entry refers to
    map          down to the level of the page, then write the entry
    new          a table of its own, with the kernel's half of the current map's
    drop         the tables below the other half, depth first, then its own

Tables are reached through the window where physical memory is mapped, so a table is the
frame at its physical address.  `LinearWalker::new` requires of its caller that the window
is there; the locks are left out.  `frames` and `freed` are history: no code reads them.
-/
import KoeOs.Paging.Entry
import KoeOs.Alloc.Page
import KoeOs.Lib.TableTree

namespace Koe

/-- `TABLE_LEN`. -/
abbrev tableLen : ℕ := 512

instance tableLen_neZero : NeZero tableLen := ⟨by decide⟩

/-- Page tables, by the physical address of the table and the index of the entry. -/
abbrev Tables := ℕ → Fin tableLen → ℕ

/-- A memory map, and the frames that were allocated for it. -/
structure MemoryMap where
  cr3 : ℕ
  frames : List ℕ
  deriving DecidableEq, Repr

/-- The machine, as the code of one memory map sees it. -/
structure Machine (π : Type) where
  /-- The word of the map. -/
  cr3 : ℕ
  /-- The frames allocated for the map. -/
  frames : List ℕ
  tables : Tables
  /-- The state of the physical page allocator. -/
  phys : π
  /-- The frames passed to `PageAllocator.deallocate`. -/
  freed : List ℕ

/-- Where an entry is: in a table, or in the map itself. -/
abbrev Place := Option (ℕ × Fin tableLen)

/-- A reference to an entry. -/
structure EntryRef where
  level : Level
  place : Place
  deriving DecidableEq, Repr

/-- What an allocator does when it is asked for a block. -/
abbrev FrameAlloc (π : Type) := Layout → Code π (Option (AddrRange uma))

namespace Machine

variable {π : Type}

def read (s : Machine π) : Place → ℕ
  | none => s.cr3
  | some (table, idx) => s.tables table idx

def write (s : Machine π) (raw : ℕ) : Place → Machine π
  | none => { s with cr3 := raw }
  | some (table, idx) => { s with tables := TableTree.set s.tables table idx raw }

/-- Run code of the physical page allocator. -/
def onPhys {α : Type} (x : Code π α) : Code (Machine π) α :=
  Code.zoom Machine.phys (fun s p => { s with phys := p }) x

theorem onPhys_ok {α : Type} {x : Code π α} {s : Machine π} {a : α} {p : π}
    (h : x.run s.phys = .ok a p) : (onPhys x).run s = .ok a { s with phys := p } := Code.zoom_ok h

theorem onPhys_error {α : Type} {x : Code π α} {s : Machine π} {q : Panic} {p : π}
    (h : x.run s.phys = .error q p) : (onPhys x).run s = .error q { s with phys := p } :=
  Code.zoom_error h

end Machine

/-- The entry of `cr3`. -/
def EntryRef.ofMap : EntryRef := ⟨.cr3, none⟩

namespace EntryRef

variable {π : Type}

def target (ent : EntryRef) : Code (Machine π) EntryTarget := do
  Entry.target ⟨ent.level, (← get).read ent.place⟩

def reinit (ent : EntryRef) (addr : Addr uma) (flags : List Flag) :
    Code (Machine π) (Option Unit) :=
  Code.zoom (fun s => s.read ent.place) (fun s raw => s.write raw ent.place)
    (Entry.reinit ent.level addr flags)

end EntryRef

namespace TableRef

variable {S : AddrSpace} {σ : Type}

/-- `TableRef::index`. -/
def index (level : Level) (table idx : ℕ) : Code σ EntryRef :=
  if h : idx < tableLen then pure ⟨level, some (table, ⟨idx, h⟩)⟩ else throw (.assertion "")

/-- `TableRef::index_with_vaddr`. -/
def indexWithVaddr (level : Level) (table : ℕ) (vaddr : Addr S) : Code σ EntryRef := do
  index level table (← vaddr.indexRange (← level.pageTableIdxRange))

end TableRef

/-! ## The walker -/

namespace LinearWalker

variable {π : Type} {S : AddrSpace}

def downWithTable (vaddr : Addr S) (tablePaddr : Addr uma) (tableLevel : Level) :
    Code (Machine π) EntryRef := do
  let _ ← p2v tablePaddr
  TableRef.indexWithVaddr tableLevel tablePaddr.value vaddr

/-- Move down, if the entry leads to a table. -/
def tryDown (vaddr : Addr S) (cur : EntryRef) : Code (Machine π) (Option EntryRef) := do
  match cur.level.nextLevel with
  | none => return none
  | some _ =>
      match ← cur.target with
      | .table level addr => return some (← downWithTable vaddr addr level)
      | _ => return none

/-- What `down` does where there is no table: it takes a frame as it is, and writes the entry
whatever it was. -/
def downNew (alloc : FrameAlloc π) (vaddr : Addr S) (cur : EntryRef) (tableLevel : Level) :
    Code (Machine π) EntryRef := do
  match ← Machine.onPhys (alloc PageSize.small.layout) with
  | none => throw .unwrapped
  | some range =>
      modify fun s => { s with frames := s.frames ++ [range.base.value] }
      let _ ← cur.reinit range.base defaultPageTableFlags
      downWithTable vaddr range.base tableLevel

/-- Move down; with a new table, if the entry does not lead to one. -/
def down (alloc : FrameAlloc π) (vaddr : Addr S) (cur : EntryRef) :
    Code (Machine π) EntryRef := do
  match cur.level.nextLevel with
  | none => return cur
  | some tableLevel =>
      match ← cur.target with
      | .none => downNew alloc vaddr cur tableLevel
      | .page _ _ => downNew alloc vaddr cur tableLevel
      | .table level addr => downWithTable vaddr addr level

/-- `while walker.try_down().is_some() {}`. -/
def tryDownLoop (vaddr : Addr S) : ℕ → EntryRef → Code (Machine π) EntryRef
  | 0, _ => throw .outOfFuel
  | fuel + 1, cur => do
      match ← tryDown vaddr cur with
      | none => return cur
      | some cur => tryDownLoop vaddr fuel cur

/-- `while cur_level != target_level { walker.down(..) }`. -/
def downLoop (alloc : FrameAlloc π) (vaddr : Addr S) (targetLevel : Level) :
    ℕ → EntryRef → Code (Machine π) EntryRef
  | 0, _ => throw .outOfFuel
  | fuel + 1, cur => do
      if cur.level = targetLevel then return cur
      downLoop alloc vaddr targetLevel fuel (← down alloc vaddr cur)

end LinearWalker

/-! ## `X86_64MemoryMap` -/

namespace MemoryMap

variable {π : Type} {S : AddrSpace}

/-- The walk of `translate`: to the entry where `vaddr` ends. -/
def walk (vaddr : Addr S) : Code (Machine π) EntryRef :=
  LinearWalker.tryDownLoop vaddr 5 .ofMap

def translate (vaddr : Addr S) : Code (Machine π) (Option (Addr uma)) := do
  let cur ← walk vaddr
  match ← cur.target with
  | .none => return none
  | .page _ addr => return some addr
  | .table _ _ => throw (.unreachable "")

def map (alloc : FrameAlloc π) (vpage : PageAddr S) (ppage : PageAddr uma) (flags : List Flag) :
    Code (Machine π) (Option Unit) := do
  Code.assert (vpage.pageSize == ppage.pageSize) ""
  let targetLevel := Level.fromPageSize vpage.pageSize
  let cur ← LinearWalker.downLoop alloc vpage.base targetLevel 5 .ofMap
  let _ ← cur.reinit ppage.base flags
  return some ()

/-- The table of the map: `&mut X86_64MemoryMap` into `TableRef`. -/
def table : Code (Machine π) (Addr uma) := do
  match ← EntryRef.ofMap.target with
  | .table _ addr =>
      let _ ← p2v addr
      return addr
  | _ => throw (.unreachable "")

/-- The frames inside the bytes, filled with zeros. -/
def zeroed (tables : Tables) (bytes : Extent) : Tables := fun table idx =>
  if bytes.base ≤ table ∧ table < bytes.base + bytes.size then 0 else tables table idx

/-- The table `new` with the kernel's half of the table `cur`. -/
def withKernelHalf (tables : Tables) (new cur : ℕ) : Tables :=
  Function.update tables new fun idx => if 256 ≤ idx.val then tables cur idx else tables new idx

/-- A new map; the map of the state is the one the memory manager currently has. -/
def new (pm : PhysMem π) : Code (Machine π) MemoryMap := do
  -- `allocate_zeroed` of `Layout::new::<RawTable>()`
  let bytes ← Code.expect (← Machine.onPhys (PageAllocator.allocate pm PageSize.small.layout))
    "Allocation failed!"
  modify fun s => { s with
    tables := zeroed s.tables ⟨bytes.base - physicalRemap.start, bytes.size⟩ }
  let tablePaddr ← v2p (← Addr.new bytes.base)
  let cur ← table
  modify fun s => { s with tables := withKernelHalf s.tables tablePaddr.value cur.value }
  let (res, cr3) ← Code.locally 0 (Entry.reinit .cr3 tablePaddr [])
  let _ ← Code.expect res "Flags should be valid"
  return ⟨cr3, [tablePaddr.value]⟩

/-- `PageAllocator.deallocate` of a table. -/
def deallocateTable (pm : PhysMem π) (ptr : Addr physicalRemap) : Code (Machine π) Unit := do
  modify fun s => { s with freed := s.freed ++ [ptr.value - physicalRemap.start] }
  Machine.onPhys (PageAllocator.deallocate pm ptr.value PageSize.small.layout)

def dropEntryTarget (pm : PhysMem π) : ℕ → EntryRef → Code (Machine π) Unit
  | 0, _ => throw .outOfFuel
  | fuel + 1, ent => do
      match ← ent.target with
      | .table level addr =>
          let tablePtr ← p2v addr
          (List.finRange tableLen).forM fun idx =>
            dropEntryTarget pm fuel ⟨level, some (addr.value, idx)⟩
          deallocateTable pm tablePtr
      | _ => return ()

def drop (pm : PhysMem π) : Code (Machine π) Unit := do
  let pml4Table ← table
  ((List.finRange tableLen).take 256).forM fun idx =>
    dropEntryTarget pm 4 ⟨.pml4, some (pml4Table.value, idx)⟩
  deallocateTable pm (← p2v pml4Table)

end MemoryMap

/-- The arguments of a call of `map`. -/
structure MapCall where
  space : AddrSpace
  vpage : PageAddr space
  ppage : PageAddr uma
  flags : List Flag

end Koe
