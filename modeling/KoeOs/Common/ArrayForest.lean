/-
# `KoeOs.Common.ArrayForest` — `src/common/array_forest.rs`

A forest of `treeCnt` binary trees of `treeDepth` levels in one buffer, level
after level.  A cursor carries an offset: the node `idx` of level `depth` has
offset `(treeCnt << depth) + idx`, and its cell is `treeCnt` below that.

The source numbers levels from the roots down; orders count from the leaves up.
`ArrayForest.cursorAt f n` is the cursor at the node `n : Node` of the library,
whose `order` is `maxDepth - depth`, and the second half of the module says
what each cursor move and each access does in those terms:

    up, sibling, left, right   stay `cursorAt` of `parent`, `sibling`, `left`, `right`
    get, `*get_mut() = x`      `look`, `write`
    slice_mut(d)[a..b].fill    `fillLevel`

`tree_cnt << tree_depth` can lose its top bits.  The buffer of such a forest is
shorter than its levels, and accesses behind it are out of bounds in the source as
they are here.

`maxDepth` is `treeDepth - 1` over the naturals.  Where `treeDepth` is `0` the source
panics when it reads `max_depth()`; the buddy system has no such forest, and the
statements about levels and nodes ask for a positive depth.
-/
import KoeOs.Rust.Layout
import KoeOs.Lib.Dyadic
import Mathlib.Tactic.Ring

namespace Koe

/-- A forest of binary trees, backed by a buffer. -/
structure ArrayForest (α : Type) where
  buf : List α
  /-- Where the buffer lies. -/
  ptr : ℕ
  treeDepth : ℕ
  treeCnt : ℕ
  deriving DecidableEq, Repr

/-- A cursor into an `ArrayForest`; the forest it borrows is the state. -/
@[ext] structure Cursor where
  depth : ℕ
  maxDepth : ℕ
  offset : ℕ
  deriving DecidableEq, Repr

namespace Cursor

/-- Move the cursor down; `false` at the last level. -/
def down (c : Cursor) (childIdx : ℕ) : Bool × Cursor :=
  if c.depth = c.maxDepth then (false, c)
  else (true, { c with depth := c.depth + 1, offset := c.offset * 2 + childIdx })

/-- Move the cursor to the left child. -/
def left (c : Cursor) : Bool × Cursor := c.down 0

/-- Move the cursor to the right child. -/
def right (c : Cursor) : Bool × Cursor := c.down 1

/-- Move the cursor up; `false` at the first level. -/
def up (c : Cursor) : Bool × Cursor :=
  if c.depth = 0 then (false, c)
  else (true, { c with depth := c.depth - 1, offset := c.offset / 2 })

/-- Move the cursor to the sibling; `false` at a root. -/
def sibling (c : Cursor) : Bool × Cursor :=
  if c.depth = 0 then (false, c) else (true, { c with offset := c.offset ^^^ 1 })

end Cursor

namespace ArrayForest

variable {α σ : Type}

/-- The number of the last level. -/
def maxDepth (f : ArrayForest α) : ℕ := f.treeDepth - 1

/-- The offset level `depth` starts at. -/
def offsetStart (f : ArrayForest α) (depth : ℕ) : ℕ := Usize.shl f.treeCnt depth

/-- The layout of the buffer behind a forest. -/
def bufLayout (elem : Layout) (treeCnt treeDepth : ℕ) : Code σ Layout := do
  if treeDepth < Usize.bits then
    Code.expect (Layout.array elem (Usize.shl treeCnt treeDepth))
      "ArrayForest layout should fit the memory"
  else throw .overflow

/-- Create a forest in memory from `alloc`; `none` is `Err(AllocError)`. -/
def new (elem : Layout) (treeCnt treeDepth : ℕ) (alloc : Layout → Code σ (Option ℕ)) (fill : α) :
    Code σ (Option (ArrayForest α)) := do
  let layout ← bufLayout elem treeCnt treeDepth
  let len := layout.size / elem.size
  match ← alloc layout with
  | none => return none
  | some ptr => return some ⟨List.replicate len fill, ptr, treeDepth, treeCnt⟩

/-- A cursor at the node `idx` of level `depth`. -/
def cursor (depth idx : ℕ) : Code (ArrayForest α) Cursor := do
  let f ← get
  Code.assert (depth ≤ f.treeDepth) ""
  let len ← Usize.sub (f.offsetStart (depth + 1)) (f.offsetStart depth)
  Code.assert (idx < len) ""
  return ⟨depth, f.maxDepth, f.offsetStart depth + idx⟩

/-- The same, borrowing the forest mutably. -/
def cursorMut (depth idx : ℕ) : Code (ArrayForest α) Cursor := cursor depth idx

/-- `&buf[idx]`. -/
def read (idx : ℕ) : Code (ArrayForest α) α := do
  let f ← get
  match f.buf[idx]? with
  | some x => return x
  | none => throw .bounds

/-- All nodes of a level. -/
def slice (depth : ℕ) : Code (ArrayForest α) (List α) := do
  let f ← get
  let start ← Usize.sub (f.offsetStart depth) f.treeCnt
  let stop ← Usize.sub (f.offsetStart (depth + 1)) f.treeCnt
  if stop ≤ f.buf.length then return (f.buf.drop start).take (stop - start)
  else throw .bounds

/-- `slice_mut(depth)[a..b].fill(x)`. -/
def sliceFill (depth a b : ℕ) (x : α) : Code (ArrayForest α) Unit := do
  let f ← get
  let start ← Usize.sub (f.offsetStart depth) f.treeCnt
  let stop ← Usize.sub (f.offsetStart (depth + 1)) f.treeCnt
  if stop ≤ f.buf.length ∧ a ≤ b ∧ b ≤ stop - start then
    set { f with buf := f.buf.mapIdx fun i y => if start + a ≤ i ∧ i < start + b then x else y }
  else throw .bounds

end ArrayForest

namespace Cursor

variable {α : Type}

/-- `*cursor.get()`. -/
def get (c : Cursor) : Code (ArrayForest α) α := do
  let f ← MonadState.get
  let idx ← Usize.sub c.offset f.treeCnt
  ArrayForest.read idx

/-- `*cursor.get_mut() = x`. -/
def set (c : Cursor) (x : α) : Code (ArrayForest α) Unit := do
  let f ← MonadState.get
  let idx ← Usize.sub c.offset f.treeCnt
  if idx < f.buf.length then MonadState.set { f with buf := f.buf.set idx x }
  else throw .bounds

/-- The number of the node on its level. -/
def idx (c : Cursor) : Code (ArrayForest α) ℕ := do
  let f ← MonadState.get
  Usize.sub c.offset (f.offsetStart c.depth)

end Cursor

/-! ## The forest as nodes -/

namespace ArrayForest

variable {α σ : Type} {f : ArrayForest α} {n m : Node}

/-- The buffer has room for every level, and no offset leaves the machine word. -/
structure Ok (f : ArrayForest α) : Prop where
  depth_pos : 0 < f.treeDepth
  len : f.buf.length = f.treeCnt * 2 ^ f.treeDepth
  fits : f.treeCnt * 2 ^ f.treeDepth < Usize.modulus

/-- The number of nodes of order `k`. -/
def width (f : ArrayForest α) (k : ℕ) : ℕ := f.treeCnt * 2 ^ (f.maxDepth - k)

/-- `n` is a node of the forest. -/
def In (f : ArrayForest α) (n : Node) : Prop := n.order ≤ f.maxDepth ∧ n.idx < f.width n.order

instance (f : ArrayForest α) (n : Node) : Decidable (f.In n) := inferInstanceAs (Decidable (_ ∧ _))

/-- The buffer index of a node. -/
def pos (f : ArrayForest α) (n : Node) : ℕ := f.width n.order + n.idx - f.treeCnt

/-- The value at a node. -/
def look (f : ArrayForest α) (n : Node) : Option α := if f.In n then f.buf[f.pos n]? else none

/-- The forest with the value at a node replaced. -/
def write (f : ArrayForest α) (n : Node) (x : α) : ArrayForest α :=
  { f with buf := f.buf.set (f.pos n) x }

/-- The cursor at a node. -/
def cursorAt (f : ArrayForest α) (n : Node) : Cursor :=
  ⟨f.maxDepth - n.order, f.maxDepth, f.width n.order + n.idx⟩

theorem offsetStart_eq (hf : f.Ok) {depth : ℕ} (h : depth ≤ f.treeDepth) :
    f.offsetStart depth = f.treeCnt * 2 ^ depth := by
  have hle : f.treeCnt * 2 ^ depth ≤ f.treeCnt * 2 ^ f.treeDepth :=
    Nat.mul_le_mul_left _ (Nat.pow_le_pow_right (by omega) h)
  exact Usize.shl_of_lt (Nat.lt_of_le_of_lt hle hf.fits)

theorem treeCnt_le_width (f : ArrayForest α) (k : ℕ) : f.treeCnt ≤ f.width k :=
  Nat.le_mul_of_pos_right _ (Nat.two_pow_pos _)

theorem width_succ {k : ℕ} (h : k < f.maxDepth) : f.width k = 2 * f.width (k + 1) := by
  have he : f.maxDepth - k = f.maxDepth - (k + 1) + 1 := by omega
  rw [width, width, he, Nat.pow_succ]; ring

/-- Offsets determine nodes: level `d` fills the offsets from `a * 2 ^ d` up to twice that. -/
theorem offset_injective {a d e i j : ℕ} (hi : i < a * 2 ^ d) (hj : j < a * 2 ^ e)
    (h : a * 2 ^ d + i = a * 2 ^ e + j) : d = e ∧ i = j := by
  have key : ∀ {d e i j : ℕ}, i < a * 2 ^ d → a * 2 ^ d + i = a * 2 ^ e + j → ¬ d < e := by
    intro d e i j hi h hlt
    have hp : a * 2 ^ (d + 1) ≤ a * 2 ^ e :=
      Nat.mul_le_mul_left a (Nat.pow_le_pow_right (by omega) hlt)
    have hs : a * 2 ^ (d + 1) = a * 2 ^ d + a * 2 ^ d := by rw [Nat.pow_succ]; ring
    omega
  have hde : d = e := by
    rcases Nat.lt_trichotomy d e with hlt | heq | hgt
    · exact absurd hlt (key hi h)
    · exact heq
    · exact absurd hgt (key hj h.symm)
  subst hde
  exact ⟨rfl, by omega⟩

theorem pos_injective (hn : f.In n) (hm : f.In m) (h : f.pos n = f.pos m) : n = m := by
  have h1 := f.treeCnt_le_width n.order
  have h2 := f.treeCnt_le_width m.order
  have ho : f.width n.order + n.idx = f.width m.order + m.idx := by
    simp only [pos] at h; omega
  obtain ⟨hd, hi⟩ := offset_injective hn.2 hm.2 ho
  have := hn.1; have := hm.1
  exact Node.ext (by omega) hi

theorem maxDepth_succ (hf : f.Ok) : f.maxDepth + 1 = f.treeDepth := by
  have := hf.depth_pos
  simp only [maxDepth]; omega

/-- A level ends at twice its start, inside the buffer. -/
theorem two_mul_width_le (hf : f.Ok) (k : ℕ) : 2 * f.width k ≤ f.buf.length := by
  have hle : f.width k ≤ f.treeCnt * 2 ^ f.maxDepth :=
    Nat.mul_le_mul_left _ (Nat.pow_le_pow_right (by omega) (Nat.sub_le _ _))
  have hlen : f.buf.length = 2 * (f.treeCnt * 2 ^ f.maxDepth) := by
    rw [hf.len, ← maxDepth_succ hf, Nat.pow_succ]; ring
  omega

/-- The last `treeCnt` cells of the buffer belong to no node. -/
theorem pos_add_lt (hf : f.Ok) (hn : f.In n) : f.pos n + f.treeCnt < f.buf.length := by
  have hcnt := f.treeCnt_le_width n.order
  have hlen := two_mul_width_le hf n.order
  have hidx := hn.2
  simp only [pos]
  omega

theorem pos_lt (hf : f.Ok) (hn : f.In n) : f.pos n < f.buf.length := by
  have := pos_add_lt hf hn
  omega

/-- Every other cell is the cell of a node. -/
theorem exists_pos (hf : f.Ok) {i : ℕ} (hi : i + f.treeCnt < f.buf.length) :
    ∃ n, f.In n ∧ f.pos n = i := by
  have hex : ∃ d, i + f.treeCnt < f.treeCnt * 2 ^ (d + 1) :=
    ⟨f.maxDepth, by rw [maxDepth_succ hf, ← hf.len]; exact hi⟩
  -- the level is the first one whose offsets end above `i + treeCnt`
  obtain ⟨d, hmin, hlt, hle⟩ : ∃ d ≤ f.maxDepth, i + f.treeCnt < f.treeCnt * 2 ^ (d + 1) ∧
      f.treeCnt * 2 ^ d ≤ i + f.treeCnt := by
    classical
    refine ⟨Nat.find hex, Nat.find_min' hex ?_, Nat.find_spec hex, ?_⟩
    · rw [maxDepth_succ hf, ← hf.len]; exact hi
    · cases hd : Nat.find hex with
      | zero => simp
      | succ d =>
          have := Nat.find_min hex (m := d) (by omega)
          omega
  have hsub : f.maxDepth - (f.maxDepth - d) = d := by omega
  have hdouble : f.treeCnt * 2 ^ (d + 1) = f.treeCnt * 2 ^ d + f.treeCnt * 2 ^ d := by
    rw [Nat.pow_succ]; ring
  refine ⟨⟨f.maxDepth - d, i + f.treeCnt - f.treeCnt * 2 ^ d⟩, ⟨Nat.sub_le _ _, ?_⟩, ?_⟩
  · simp only [width, hsub]; omega
  · simp only [pos, width, hsub]; omega

/-! ### Reading and writing nodes -/

theorem look_isSome (hf : f.Ok) : (f.look n).isSome ↔ f.In n := by
  unfold look
  split
  · rename_i hn
    simp [hn, pos_lt hf hn]
  · rename_i hn
    simp [hn]

theorem look_of_not_in (h : ¬ f.In n) : f.look n = none := if_neg h

theorem look_eq (h : f.In n) : f.look n = f.buf[f.pos n]? := if_pos h

section Write

variable (f) (x : α)

@[simp] theorem write_maxDepth : (f.write n x).maxDepth = f.maxDepth := rfl
@[simp] theorem write_pos (m : Node) : (f.write n x).pos m = f.pos m := rfl
@[simp] theorem write_in (m : Node) : (f.write n x).In m ↔ f.In m := Iff.rfl

end Write

theorem Ok.write (hf : f.Ok) (n : Node) (x : α) : (f.write n x).Ok :=
  ⟨hf.depth_pos, by simp [ArrayForest.write, hf.len], hf.fits⟩

theorem look_write (hf : f.Ok) (hn : f.In n) (x : α) (m : Node) :
    (f.write n x).look m = if m = n then some x else f.look m := by
  by_cases hm : f.In m
  · rw [look_eq (f := f.write n x) hm, write_pos]
    simp only [write, List.getElem?_set]
    by_cases he : m = n
    · subst he
      simp [pos_lt hf hn]
    · have hp : f.pos n ≠ f.pos m := fun h => he (pos_injective hn hm h).symm
      rw [if_neg hp, if_neg he, look_eq hm]
  · rw [look_of_not_in (f := f.write n x) hm]
    have he : m ≠ n := fun he => hm (he ▸ hn)
    rw [if_neg he, look_of_not_in hm]

/-- Two forests of one shape at one place with the same nodes and the same unused cells are
equal. -/
theorem ext_look {g : ArrayForest α} (hf : f.Ok) (hp : f.ptr = g.ptr)
    (hd : f.treeDepth = g.treeDepth) (hc : f.treeCnt = g.treeCnt) (hlook : ∀ n, f.look n = g.look n)
    (hrest : ∀ i, f.buf.length ≤ i + f.treeCnt → f.buf[i]? = g.buf[i]?) : f = g := by
  have hm : f.maxDepth = g.maxDepth := by simp only [maxDepth, hd]
  have hw : ∀ k, f.width k = g.width k := fun k => by simp only [width, hc, hm]
  have hbuf : f.buf = g.buf := by
    refine List.ext_getElem? fun i => ?_
    by_cases hi : i + f.treeCnt < f.buf.length
    · obtain ⟨n, hn, rfl⟩ := exists_pos hf hi
      have hn' : g.In n := ⟨hm ▸ hn.1, hw _ ▸ hn.2⟩
      have hpos : g.pos n = f.pos n := by simp only [pos, hw, hc]
      have := hlook n
      rwa [look_eq hn, look_eq hn', hpos] at this
    · exact hrest i (Nat.le_of_not_lt hi)
  cases f; cases g
  simp only at hbuf hp hd hc
  subst hbuf hp hd hc
  rfl

/-- `g` is `f` with some of its nodes rewritten: one place, one shape, the same unused cells. -/
structure Same (f g : ArrayForest α) : Prop where
  ok : g.Ok
  ptr : g.ptr = f.ptr
  depth : g.treeDepth = f.treeDepth
  cnt : g.treeCnt = f.treeCnt
  rest : ∀ i, f.buf.length ≤ i + f.treeCnt → g.buf[i]? = f.buf[i]?

namespace Same

variable {g h : ArrayForest α}

theorem refl (hf : f.Ok) : f.Same f := ⟨hf, rfl, rfl, rfl, fun _ _ => rfl⟩

theorem maxDepth (hs : f.Same g) : g.maxDepth = f.maxDepth := by
  simp only [ArrayForest.maxDepth, hs.depth]

theorem width (hs : f.Same g) (k : ℕ) : g.width k = f.width k := by
  simp only [ArrayForest.width, hs.cnt, hs.maxDepth]

theorem in_iff (hs : f.Same g) (n : Node) : g.In n ↔ f.In n := by
  simp only [In, hs.maxDepth, hs.width]

theorem length (hf : f.Ok) (hs : f.Same g) : g.buf.length = f.buf.length := by
  rw [hs.ok.len, hf.len, hs.cnt, hs.depth]

theorem trans (hf : f.Ok) (hs : f.Same g) (ht : g.Same h) : f.Same h where
  ok := ht.ok
  ptr := ht.ptr.trans hs.ptr
  depth := ht.depth.trans hs.depth
  cnt := ht.cnt.trans hs.cnt
  rest i hi := (ht.rest i (by rw [hs.length hf, hs.cnt]; exact hi)).trans (hs.rest i hi)

/-- Two rewritings of one forest. -/
theorem join (hf : f.Ok) (hs : f.Same g) (ht : f.Same h) : g.Same h where
  ok := ht.ok
  ptr := ht.ptr.trans hs.ptr.symm
  depth := ht.depth.trans hs.depth.symm
  cnt := ht.cnt.trans hs.cnt.symm
  rest i hi := by
    rw [hs.length hf, hs.cnt] at hi
    exact (ht.rest i hi).trans (hs.rest i hi).symm

end Same

theorem same_write (hf : f.Ok) (hn : f.In n) (x : α) : f.Same (f.write n x) where
  ok := hf.write n x
  ptr := rfl
  depth := rfl
  cnt := rfl
  rest i hi := by
    have := pos_add_lt hf hn
    simp only [write]
    exact List.getElem?_set_ne (by omega)

/-! ### Cursor moves -/

theorem In.parent (hn : f.In n) (h : n.order < f.maxDepth) : f.In n.parent := by
  refine ⟨h, ?_⟩
  have hi := hn.2
  rw [width_succ h] at hi
  simp only [Node.parent_idx, Node.parent_order]
  omega

theorem In.sibling (hn : f.In n) (h : n.order < f.maxDepth) : f.In n.sibling := by
  have hp := hn.parent h
  refine ⟨hn.1, ?_⟩
  have hw := width_succ h
  have hi := hp.2
  simp only [Node.parent_idx, Node.parent_order] at hi
  rcases Node.sibling_cases n with ⟨-, hs⟩ | ⟨-, hs⟩
  · rw [Node.sibling_order, hs]; simp only [Node.right, Node.parent_idx]; omega
  · rw [Node.sibling_order, hs]; simp only [Node.left, Node.parent_idx]; omega

theorem In.left (hn : f.In n) (h : 0 < n.order) : f.In n.left := by
  have h1 := hn.1
  have hw : f.width (n.order - 1) = 2 * f.width (n.order - 1 + 1) := width_succ (by omega)
  rw [Nat.sub_add_cancel h] at hw
  refine ⟨by simp only [Node.left_order]; omega, ?_⟩
  have hi := hn.2
  simp only [Node.left, hw]; omega

theorem In.right (hn : f.In n) (h : 0 < n.order) : f.In n.right := by
  have h1 := hn.1
  have hw : f.width (n.order - 1) = 2 * f.width (n.order - 1 + 1) := width_succ (by omega)
  rw [Nat.sub_add_cancel h] at hw
  refine ⟨by simp only [Node.right_order]; omega, ?_⟩
  have hi := hn.2
  simp only [Node.right, hw]; omega

/-- Everything below a node of the forest is in the forest. -/
theorem In.mono (hn : f.In n) (h : m ≤ n) : f.In m := by
  have h1 := hn.1
  have h2 := h.1
  refine ⟨Nat.le_trans h2 h1, ?_⟩
  have hw : f.width m.order = 2 ^ (n.order - m.order) * f.width n.order := by
    have he : f.maxDepth - m.order = (n.order - m.order) + (f.maxDepth - n.order) := by omega
    rw [width, width, he, Nat.pow_add]; ring
  have hi := hn.2
  rw [← h.2, Nat.div_lt_iff_lt_mul (Nat.two_pow_pos _)] at hi
  rw [hw, Nat.mul_comm]; exact hi

theorem cursorAt_up (h : n.order < f.maxDepth) :
    (f.cursorAt n).up = (true, f.cursorAt n.parent) := by
  have hd : f.maxDepth - n.order ≠ 0 := by omega
  have hw := width_succ h
  rw [Cursor.up, if_neg (show ¬ (f.cursorAt n).depth = 0 from hd)]
  refine Prod.ext rfl (Cursor.ext ?_ rfl ?_)
  · simp only [cursorAt, Node.parent_order]; omega
  · simp only [cursorAt, Node.parent_order, Node.parent_idx]; omega

theorem cursorAt_sibling (h : n.order < f.maxDepth) :
    (f.cursorAt n).sibling = (true, f.cursorAt n.sibling) := by
  have hd : f.maxDepth - n.order ≠ 0 := by omega
  have hw := width_succ h
  rw [Cursor.sibling, if_neg (show ¬ (f.cursorAt n).depth = 0 from hd)]
  refine Prod.ext rfl (Cursor.ext rfl rfl ?_)
  simp only [cursorAt, Node.sibling]
  -- the level starts at an even offset, so the last bit is that of the index
  rcases Nat.even_or_odd n.idx with he | ho
  · have he' : Even (f.width n.order + n.idx) := by
      rw [hw]; exact (even_two_mul _).add he
    rw [Nat.xor_one_of_even he', Nat.xor_one_of_even he, Nat.add_assoc]
  · have ho' : Odd (f.width n.order + n.idx) := by
      rw [hw]; exact (even_two_mul _).add_odd ho
    obtain ⟨q, hq⟩ := ho
    rw [Nat.xor_one_of_odd ho', Nat.xor_one_of_odd ⟨q, hq⟩]
    omega

theorem cursorAt_down (h : 0 < n.order) (hn : n.order ≤ f.maxDepth) :
    (f.cursorAt n).left = (true, f.cursorAt n.left) ∧
      (f.cursorAt n).right = (true, f.cursorAt n.right) := by
  have hd : f.maxDepth - n.order ≠ f.maxDepth := by omega
  have hw : f.width (n.order - 1) = 2 * f.width (n.order - 1 + 1) := width_succ (by omega)
  rw [Nat.sub_add_cancel h] at hw
  rw [Cursor.left, Cursor.right, Cursor.down, Cursor.down,
    if_neg (show ¬ (f.cursorAt n).depth = (f.cursorAt n).maxDepth from hd),
    if_neg (show ¬ (f.cursorAt n).depth = (f.cursorAt n).maxDepth from hd)]
  refine ⟨Prod.ext rfl (Cursor.ext ?_ rfl ?_), Prod.ext rfl (Cursor.ext ?_ rfl ?_)⟩
  · simp only [cursorAt, Node.left]; omega
  · simp only [cursorAt, Node.left, hw]; omega
  · simp only [cursorAt, Node.right]; omega
  · simp only [cursorAt, Node.right, hw]; omega

/-! ### Running the accesses -/

theorem read_of_some {i : ℕ} {x : α} (h : f.buf[i]? = some x) : (read i).run f = .ok x f := by
  simp [read, h]

/-- The offset of a node is at least `treeCnt`, so its cell index does not underflow. -/
theorem treeCnt_le_offset (f : ArrayForest α) (n : Node) : f.treeCnt ≤ (f.cursorAt n).offset :=
  Nat.le_trans (f.treeCnt_le_width n.order) (Nat.le_add_right _ _)

theorem get_cursorAt {x : α} (h : f.look n = some x) : (f.cursorAt n).get.run f = .ok x f := by
  have hn : f.In n := by
    by_contra hn
    rw [look_of_not_in hn] at h
    exact nomatch h
  rw [look_eq hn] at h
  unfold Cursor.get
  rw [Code.get_bind, Code.bind_ok (Usize.sub_of_le (f.treeCnt_le_offset n) f)]
  exact read_of_some h

theorem set_cursorAt (hf : f.Ok) (hn : f.In n) (x : α) :
    ((f.cursorAt n).set x).run f = .ok () (f.write n x) := by
  have hlt : (f.cursorAt n).offset - f.treeCnt < f.buf.length := pos_lt hf hn
  unfold Cursor.set
  rw [Code.get_bind, Code.bind_ok (Usize.sub_of_le (f.treeCnt_le_offset n) f), if_pos hlt]
  rfl

theorem offsetStart_level (hf : f.Ok) (k : ℕ) : f.offsetStart (f.maxDepth - k) = f.width k := by
  have := maxDepth_succ hf
  rw [offsetStart_eq hf (by omega), width]

theorem offsetStart_level_succ (hf : f.Ok) (k : ℕ) :
    f.offsetStart (f.maxDepth - k + 1) = 2 * f.width k := by
  have := maxDepth_succ hf
  rw [offsetStart_eq hf (by omega), width, Nat.pow_succ]; ring

theorem idx_cursorAt (hf : f.Ok) (n : Node) : (f.cursorAt n).idx.run f = .ok n.idx f := by
  have hs : f.offsetStart (f.cursorAt n).depth = f.width n.order := offsetStart_level hf n.order
  unfold Cursor.idx
  rw [Code.get_bind, hs, cursorAt, Usize.sub_of_le (Nat.le_add_right _ _),
    Nat.add_sub_cancel_left]

theorem cursor_run (hf : f.Ok) (hn : f.In n) :
    (cursor (f.maxDepth - n.order) n.idx).run f = .ok (f.cursorAt n) f := by
  have hd : f.maxDepth - n.order ≤ f.treeDepth := by
    have := maxDepth_succ hf
    omega
  have hi : n.idx < 2 * f.width n.order - f.width n.order := by
    have := hn.2
    omega
  unfold cursor
  rw [Code.get_bind, Code.bind_ok (Code.assert_of (decide_eq_true hd) _ f),
    offsetStart_level hf, offsetStart_level_succ hf, Code.bind_ok (Usize.sub_of_le (by omega) f),
    Code.bind_ok (Code.assert_of (decide_eq_true hi) _ f)]
  rfl

theorem cursorMut_run (hf : f.Ok) (hn : f.In n) :
    (cursorMut (f.maxDepth - n.order) n.idx).run f = .ok (f.cursorAt n) f :=
  cursor_run hf hn

theorem new_eq {elem : Layout} {treeCnt treeDepth : ℕ} {alloc : Layout → Code σ (Option ℕ)}
    {fill : α} {m m' : σ}
    (h : (new elem treeCnt treeDepth alloc fill).run m = .ok (some f) m') :
    ∃ l ptr, Layout.array elem (Usize.shl treeCnt treeDepth) = some l ∧
      f = ⟨List.replicate (l.size / elem.size) fill, ptr, treeDepth, treeCnt⟩ := by
  unfold new at h
  obtain ⟨l, m₁, hl, halloc⟩ := Code.bind_eq_ok.mp h
  refine ⟨l, f.ptr, ?_, ?_⟩
  · unfold bufLayout at hl
    split at hl
    · cases ha : Layout.array elem (Usize.shl treeCnt treeDepth) with
      | some l' => rw [ha, Code.expect_some] at hl; cases hl; rfl
      | none => rw [ha, Code.expect_none] at hl; exact nomatch hl
    · exact nomatch hl
  · obtain ⟨a, m₂, -, hret⟩ := Code.bind_eq_ok.mp halloc
    cases a with
    | none => exact nomatch hret
    | some a => cases hret; rfl

/-- The buffer of a new forest is as long as `buf_layout` computes it.  The source divides by the
size of a value, which is not 0 then. -/
theorem length_of_new {elem : Layout} {treeCnt treeDepth : ℕ}
    {alloc : Layout → Code σ (Option ℕ)} {fill : α} {m m' : σ} (hsize : 0 < elem.size)
    (h : (new elem treeCnt treeDepth alloc fill).run m = .ok (some f) m') :
    f.buf.length = Usize.shl f.treeCnt f.treeDepth := by
  obtain ⟨l, ptr, hl, rfl⟩ := new_eq h
  rw [List.length_replicate, Layout.array_size hl, Nat.mul_div_cancel_left _ hsize]

/-! ### Levels -/

/-- The forest with the nodes `a, …, b - 1` of order `k` overwritten. -/
def fillLevel (f : ArrayForest α) (k a b : ℕ) (x : α) : ArrayForest α :=
  { f with buf := f.buf.mapIdx fun i y =>
      if f.width k - f.treeCnt + a ≤ i ∧ i < f.width k - f.treeCnt + b then x else y }

theorem Ok.fillLevel (hf : f.Ok) (k a b : ℕ) (x : α) : (f.fillLevel k a b x).Ok :=
  ⟨hf.depth_pos, by simp [ArrayForest.fillLevel, hf.len], hf.fits⟩

theorem look_fillLevel (hf : f.Ok) {k a b : ℕ} (hk : k ≤ f.maxDepth) (hb : b ≤ f.width k) (x : α)
    (m : Node) : (f.fillLevel k a b x).look m =
      if m.order = k ∧ a ≤ m.idx ∧ m.idx < b then some x else f.look m := by
  by_cases hm : f.In m
  · have hlt := pos_lt hf hm
    have hpos : (f.fillLevel k a b x).pos m = f.pos m := rfl
    rw [look_eq (f := f.fillLevel k a b x) hm, look_eq hm, hpos]
    simp only [fillLevel, List.getElem?_mapIdx, List.getElem?_eq_getElem hlt, Option.map_some]
    -- the cells overwritten are those of the nodes `⟨k, a⟩, …, ⟨k, b - 1⟩`
    have hiff : (f.width k - f.treeCnt + a ≤ f.pos m ∧ f.pos m < f.width k - f.treeCnt + b) ↔
        m.order = k ∧ a ≤ m.idx ∧ m.idx < b := by
      have h1 := f.treeCnt_le_width k
      have h2 := f.treeCnt_le_width m.order
      constructor
      · rintro ⟨hl, hu⟩
        have hin : f.In ⟨k, f.pos m - (f.width k - f.treeCnt)⟩ :=
          ⟨hk, show f.pos m - (f.width k - f.treeCnt) < f.width k by omega⟩
        have he := pos_injective hm hin (by simp only [pos] at hl hu ⊢; omega)
        rw [he]
        exact ⟨rfl, by simp only; omega, by simp only; omega⟩
      · rintro ⟨rfl, hl, hu⟩
        simp only [pos]; omega
    by_cases h : m.order = k ∧ a ≤ m.idx ∧ m.idx < b
    · rw [if_pos h, if_pos (hiff.mpr h)]
    · rw [if_neg h, if_neg fun h' => h (hiff.mp h')]
  · rw [look_of_not_in (f := f.fillLevel k a b x) hm, look_of_not_in hm, if_neg]
    rintro ⟨rfl, -, hu⟩
    exact hm ⟨hk, Nat.lt_of_lt_of_le hu hb⟩

theorem same_fillLevel (hf : f.Ok) {k a b : ℕ} (hb : b ≤ f.width k) (x : α) :
    f.Same (f.fillLevel k a b x) where
  ok := hf.fillLevel k a b x
  ptr := rfl
  depth := rfl
  cnt := rfl
  rest i hi := by
    -- level `k` ends at `2 * width k - treeCnt`, before the unused cells
    have hlen := two_mul_width_le hf k
    have hcnt := f.treeCnt_le_width k
    have hout : ¬ (f.width k - f.treeCnt + a ≤ i ∧ i < f.width k - f.treeCnt + b) := by omega
    simp [fillLevel, List.getElem?_mapIdx, hout]

theorem sliceFill_run (hf : f.Ok) {k a b : ℕ} (hab : a ≤ b)
    (hb : b ≤ f.width k) (x : α) :
    (sliceFill (f.maxDepth - k) a b x).run f = .ok () (f.fillLevel k a b x) := by
  have h1 := f.treeCnt_le_width k
  have hs := offsetStart_level hf k
  have he := offsetStart_level_succ hf k
  have hlen := two_mul_width_le hf k
  have hcond : 2 * f.width k - f.treeCnt ≤ f.buf.length ∧ a ≤ b ∧
      b ≤ 2 * f.width k - f.treeCnt - (f.width k - f.treeCnt) := ⟨by omega, hab, by omega⟩
  unfold sliceFill
  rw [Code.get_bind, hs, he, Code.bind_ok (Usize.sub_of_le h1 f),
    Code.bind_ok (Usize.sub_of_le (by omega) f), if_pos hcond]
  rfl

/-- The values at the nodes of order `k`. -/
def level (f : ArrayForest α) (k : ℕ) : List α :=
  (f.buf.drop (f.width k - f.treeCnt)).take (f.width k)

theorem slice_run (hf : f.Ok) (k : ℕ) : (slice (f.maxDepth - k)).run f = .ok (f.level k) f := by
  have hcnt := f.treeCnt_le_width k
  have hlen := two_mul_width_le hf k
  have hstop : 2 * f.width k - f.treeCnt ≤ f.buf.length := by omega
  have hwidth : 2 * f.width k - f.treeCnt - (f.width k - f.treeCnt) = f.width k := by omega
  unfold slice
  rw [Code.get_bind, offsetStart_level hf, offsetStart_level_succ hf,
    Code.bind_ok (Usize.sub_of_le hcnt f), Code.bind_ok (Usize.sub_of_le (by omega) f),
    if_pos hstop, hwidth]
  rfl

theorem level_getElem? (f : ArrayForest α) {k : ℕ} (hk : k ≤ f.maxDepth) (i : ℕ) :
    (f.level k)[i]? = f.look ⟨k, i⟩ := by
  by_cases hi : i < f.width k
  · have hcnt := f.treeCnt_le_width k
    have hpos : f.pos ⟨k, i⟩ = f.width k - f.treeCnt + i := by
      show f.width k + i - f.treeCnt = _
      omega
    rw [look_eq ⟨hk, hi⟩, level, List.getElem?_take_of_lt hi, List.getElem?_drop, hpos]
  · rw [look_of_not_in fun hn => hi hn.2, level, List.getElem?_take_eq_none (Nat.le_of_not_lt hi)]

theorem level_maxDepth (f : ArrayForest α) : f.level f.maxDepth = f.buf.take f.treeCnt := by
  have hwidth : f.width f.maxDepth = f.treeCnt := by simp [width]
  rw [level, hwidth, Nat.sub_self, List.drop_zero]

/-- The roots, as `slice(0)` gives them. -/
theorem slice_zero_run (hf : f.Ok) : (slice 0).run f = .ok (f.buf.take f.treeCnt) f := by
  have hrun := slice_run hf f.maxDepth
  rwa [Nat.sub_self, level_maxDepth] at hrun

theorem root_in {r : ℕ} : f.In ⟨f.maxDepth, r⟩ ↔ r < f.treeCnt := by
  simp [In, width]

/-- Every node lies in one of the trees. -/
theorem In.exists_root (hn : f.In n) : ∃ r < f.treeCnt, n ≤ ⟨f.maxDepth, r⟩ := by
  refine ⟨n.idx / 2 ^ (f.maxDepth - n.order), ?_, hn.1, rfl⟩
  exact Nat.div_lt_of_lt_mul (by rw [Nat.mul_comm]; exact hn.2)

theorem roots_getElem? (f : ArrayForest α) (r : ℕ) :
    (f.buf.take f.treeCnt)[r]? = f.look ⟨f.maxDepth, r⟩ := by
  rw [← level_maxDepth, level_getElem? f (Nat.le_refl _)]

end ArrayForest

end Koe
