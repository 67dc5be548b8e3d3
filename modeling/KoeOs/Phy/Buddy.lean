/-
# `KoeOs.Phy.Buddy` — `src/mem/phy/buddy.rs`

The buddy system keeps one byte per node of an `ArrayForest`: `0` for reserved,
`order + 1` for free.  A node records the largest order that is free below it,
so a node of order `k` that records `k` is free as a whole.

    new          all nodes reserved
    freeForced   mark a block free at every level, then fix up the ancestors
    reserve      find a root that records *more* than `order`, search below it
                 for a node that records exactly its own order, mark it reserved
    free         mark a reserved node free
    fixupMap     recompute ancestors as the maximum of their children

Loops are recursions with the loop's own bound: `fixupMap` runs once per level
above the cursor, the search of `reserve` visits each node of one tree at most
once and is given that many steps.
-/
import KoeOs.Common.ArrayForest
import Mathlib.Order.Nat
import Mathlib.Order.Lattice.Nat

namespace Koe

/-- `BUDDY_MAX_ORDER`. -/
def buddyMaxOrder : ℕ := 18

/-- `BUDDY_MAX_DEPTH`, the capacity of the search stack. -/
def buddyMaxDepth : ℕ := buddyMaxOrder

/-- What a node records. -/
@[ext] structure Buddy where
  val : ℕ
  deriving DecidableEq, Repr

namespace Buddy

variable {σ : Type}

/-- A free buddy. -/
def free (order : ℕ) : Buddy := ⟨order + 1⟩

def reserved : Buddy := ⟨0⟩

def isReserved (b : Buddy) : Bool := b.val == 0

def isFree (b : Buddy) : Bool := !b.isReserved

/-- The order of a free buddy; on a reserved one the subtraction overflows. -/
def order (b : Buddy) : Code σ ℕ := Usize.sub b.val 1

/-- The derived order on the byte. -/
instance : LinearOrder Buddy := LinearOrder.lift' Buddy.val fun _ _ h => Buddy.ext h

/-- A `u8`, so one byte. -/
def layout : Layout := ⟨1, 1, Layout.align_byte, by decide⟩

end Buddy

/-- A buddy system over `map`, whose trees have order `maxOrder`. -/
structure BuddySystem where
  map : ArrayForest Buddy
  maxOrder : ℕ
  deriving DecidableEq, Repr

namespace BuddySystem

variable {σ α : Type}

/-- Run code of the forest. -/
def onMap (x : Code (ArrayForest Buddy) α) : Code BuddySystem α :=
  Code.zoom BuddySystem.map (fun s map => { s with map }) x

/-- Create a buddy system that manages `pageCnt` pages; `none` is `Err(AllocError)`. -/
def new (pageCnt : ℕ) (bootAlloc : Layout → Code σ (Option ℕ)) : Code σ (Option BuddySystem) := do
  let dummyPageCnt ← Usize.nextPowerOfTwo pageCnt
  let maxOrder := min dummyPageCnt.log2 buddyMaxOrder
  let treeDepth := maxOrder + 1
  let treeCnt := Usize.divCeil pageCnt (1 <<< maxOrder)
  match ← ArrayForest.new Buddy.layout treeCnt treeDepth bootAlloc Buddy.reserved with
  | none => return none
  | some map => return some ⟨map, maxOrder⟩

/-- `fixup_map`, with the depth of the cursor as the number of rounds. -/
def fixupLoop : ℕ → Cursor → Code (ArrayForest Buddy) Unit
  | 0, _ => return ()
  | depth + 1, cursor => do
      let me ← cursor.get
      let cursor := cursor.sibling.2
      let sib ← cursor.get
      let par := max me sib
      let cursor := cursor.up.2
      -- no need to fix further
      if (← cursor.get) = par then return ()
      cursor.set par
      fixupLoop depth cursor

/-- Recompute the ancestors of the cursor. -/
def fixupMap (cursor : Cursor) : Code (ArrayForest Buddy) Unit := fixupLoop cursor.depth cursor

def depthToOrder (depth : ℕ) : Code (ArrayForest Buddy) ℕ := do
  Usize.sub (← get).maxDepth depth

def orderToDepth (order : ℕ) : Code (ArrayForest Buddy) ℕ := do
  Usize.sub (← get).maxDepth order

/-- Free a reserved block. -/
def free (idx order : ℕ) : Code BuddySystem Unit := onMap do
  let depth ← orderToDepth order
  let idx := idx >>> order
  let cursor ← ArrayForest.cursorMut depth idx
  let buddy ← cursor.get
  Code.assert buddy.isReserved "BuddySystem: Double Free!"
  cursor.set (Buddy.free order)
  fixupMap cursor

/-- The body of the loop of `free_forced`: mark the block on one level. -/
def fillDepth (idx maxDepth targetDepth depth : ℕ) : Code (ArrayForest Buddy) Unit :=
  let order := maxDepth - depth
  let blockCnt := 1 <<< (depth - targetDepth)
  let start := idx >>> order
  ArrayForest.sliceFill depth start (start + blockCnt) (Buddy.free order)

/-- Mark a block as free whatever it was. -/
def freeForced (idx order : ℕ) : Code BuddySystem Unit := do
  Code.assert (order ≤ (← get).maxOrder) ""
  onMap do
    let maxDepth := (← get).maxDepth
    let targetDepth ← Usize.sub maxDepth order
    (List.range' targetDepth (maxDepth + 1 - targetDepth)).forM (fillDepth idx maxDepth targetDepth)
    let cursor ← ArrayForest.cursorMut targetDepth (idx >>> order)
    fixupMap cursor

/-- `root.is_free() && root.order() > order`. -/
def holdsMore (order : ℕ) (root : Buddy) : Bool := root.isFree && decide (order < root.val - 1)

/-- The search loop of `reserve`: the cursor, and the stack of right siblings to return to. -/
def search (order : ℕ) : ℕ → Option Cursor → List Cursor → Code (ArrayForest Buddy) (Option Cursor)
  | 0, _, _ => throw .outOfFuel
  | _ + 1, none, _ => return none
  | fuel + 1, some cursor, stack => do
      let buddy ← cursor.get
      if buddy.isReserved then
        search order fuel stack.head? stack.tail
      else
        let curMaxOrder ← depthToOrder cursor.depth
        let curOrder ← buddy.order
        if curOrder < order then
          -- rewind
          search order fuel stack.head? stack.tail
        else if curOrder = order ∧ curOrder = curMaxOrder then
          -- found block
          return some cursor
        else
          -- keep searching
          let (notEnd, rewind) := cursor.right
          Code.assert notEnd ""
          if stack.length < buddyMaxDepth then
            search order fuel (some cursor.left.2) (rewind :: stack)
          else throw .capacity

/-- Reserve a block; returns the index of its first page. -/
def reserve (order : ℕ) : Code BuddySystem (Option ℕ) := do
  Code.assert (order ≤ (← get).maxOrder) ""
  onMap do
    let roots ← ArrayForest.slice 0
    match roots.findIdx? (holdsMore order) with
    | none => return none
    | some root =>
        let cursor ← ArrayForest.cursor 0 root
        match ← search order (2 ^ (← get).treeDepth) (some cursor) [] with
        | none =>
            throw (.unreachable
              "A fit block should be found under root with the appropriate order.")
        | some cursor =>
            let idx ← cursor.idx
            let cursor ← ArrayForest.cursorMut cursor.depth idx
            cursor.set Buddy.reserved
            fixupMap cursor
            return some (idx <<< order)

end BuddySystem

end Koe
