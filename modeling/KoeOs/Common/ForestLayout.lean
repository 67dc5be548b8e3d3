/-
# `KoeOs.Common.ForestLayout` — the layout of an `ArrayForest`, level by level

`KoeOs.Common.ArrayForest` speaks of nodes by their order, which the buddy system needs.
Here a node is what the source has, a level `depth` from the roots down and an index on it,
and its cell is

    (tree_cnt << depth) + idx - tree_cnt

`LaidOut` says that this is a layout: no two nodes share a cell, every cell lies in the
buffer, the moves of a cursor are those of a forest of binary trees, and a cursor and a
slice agree on the cell of a node.

The shifts are those of the machine, which drop the bits that leave the word.  `buf_layout`
computes the length of the buffer with such a shift, and `new` accepts the result.  The
theorem is that a forest is laid out exactly if `tree_cnt * 2 ^ tree_depth` is a `usize`.
-/
import KoeOs.Common.ArrayForest
import Mathlib.Data.Set.Function

namespace Koe

namespace ArrayForest

variable {α σ : Type} {f : ArrayForest α} {depth idx : ℕ}

/-- A forest as `new` builds it: the buffer has the length that `buf_layout` computes. -/
structure Built (f : ArrayForest α) : Prop where
  cnt_lt : f.treeCnt < Usize.modulus
  len : f.buf.length = Usize.shl f.treeCnt f.treeDepth

/-- There is a node `idx` on level `depth`. -/
def HasNode (f : ArrayForest α) (depth idx : ℕ) : Prop :=
  depth < f.treeDepth ∧ idx < f.treeCnt * 2 ^ depth

/-- The index of its cell in the buffer. -/
def cell (f : ArrayForest α) (depth idx : ℕ) : ℕ := Usize.shl f.treeCnt depth + idx - f.treeCnt

/-- A cursor at the node. -/
def cursorOn (f : ArrayForest α) (depth idx : ℕ) : Cursor :=
  ⟨depth, f.maxDepth, Usize.shl f.treeCnt depth + idx⟩

/-- What the functions of the forest and of its cursors do at a node. -/
structure Navigates (f : ArrayForest α) (depth idx : ℕ) : Prop where
  cursor : (ArrayForest.cursor depth idx).run f = .ok (f.cursorOn depth idx) f
  cursorMut : (ArrayForest.cursorMut depth idx).run f = .ok (f.cursorOn depth idx) f
  -- the offset is a `usize`
  offset_lt : (f.cursorOn depth idx).offset < Usize.modulus
  idx_eq : (f.cursorOn depth idx).idx.run f = .ok idx f
  left : (f.cursorOn depth idx).left = if depth = f.maxDepth then (false, f.cursorOn depth idx)
    else (true, f.cursorOn (depth + 1) (2 * idx))
  right : (f.cursorOn depth idx).right = if depth = f.maxDepth then (false, f.cursorOn depth idx)
    else (true, f.cursorOn (depth + 1) (2 * idx + 1))
  children : depth ≠ f.maxDepth →
    f.HasNode (depth + 1) (2 * idx) ∧ f.HasNode (depth + 1) (2 * idx + 1)
  up : (f.cursorOn depth idx).up = if depth = 0 then (false, f.cursorOn depth idx)
    else (true, f.cursorOn (depth - 1) (idx / 2))
  sibling : (f.cursorOn depth idx).sibling = if depth = 0 then (false, f.cursorOn depth idx)
    else (true, f.cursorOn depth (idx ^^^ 1))
  relatives : depth ≠ 0 → f.HasNode (depth - 1) (idx / 2) ∧ f.HasNode depth (idx ^^^ 1)
  -- `slice(depth)[idx]` and `cursor(depth, idx).get()`
  read : ∃ level x, (slice depth).run f = .ok level f ∧ level[idx]? = some x ∧
    (f.cursorOn depth idx).get.run f = .ok x f
  -- `slice_mut(depth)[idx] = x` and `*cursor_mut(depth, idx).get_mut() = x`
  write : ∀ x, ∃ g, (sliceFill depth idx (idx + 1) x).run f = .ok () g ∧
    ((f.cursorOn depth idx).set x).run f = .ok () g

/-- The buffer is an array layout of the forest. -/
structure LaidOut (f : ArrayForest α) : Prop where
  injective : Set.InjOn (fun n : ℕ × ℕ => f.cell n.1 n.2) {n | f.HasNode n.1 n.2}
  bounded : ∀ depth idx, f.HasNode depth idx → f.cell depth idx < Usize.shl f.treeCnt f.treeDepth
  navigates : ∀ depth idx, f.HasNode depth idx → f.Navigates depth idx

/-! ## Forests that fit -/

theorem Built.ok (hf : f.Built) (hdepth : 0 < f.treeDepth)
    (hfits : f.treeCnt * 2 ^ f.treeDepth < Usize.modulus) : f.Ok where
  depth_pos := hdepth
  len := hf.len.trans (Usize.shl_of_lt hfits)
  fits := hfits

/-- A level counted from the roots down is an order counted from the leaves up. -/
def node (f : ArrayForest α) (depth idx : ℕ) : Node := ⟨f.maxDepth - depth, idx⟩

theorem HasNode.le_maxDepth (h : f.HasNode depth idx) : depth ≤ f.maxDepth := by
  have hlt := h.1
  rw [maxDepth]
  omega

theorem sub_node_order (hd : depth ≤ f.maxDepth) :
    f.maxDepth - (f.node depth idx).order = depth := by
  show f.maxDepth - (f.maxDepth - depth) = depth
  omega

theorem HasNode.order_pos (h : f.HasNode depth idx) (hne : depth ≠ f.maxDepth) :
    0 < (f.node depth idx).order := by
  have hd := h.le_maxDepth
  show 0 < f.maxDepth - depth
  omega

theorem HasNode.order_lt (h : f.HasNode depth idx) (hne : depth ≠ 0) :
    (f.node depth idx).order < f.maxDepth := by
  have hd := h.le_maxDepth
  show f.maxDepth - depth < f.maxDepth
  omega

theorem hasNode_iff (hf : f.Ok) (hd : depth ≤ f.maxDepth) :
    f.HasNode depth idx ↔ f.In (f.node depth idx) := by
  have hmax := maxDepth_succ hf
  unfold HasNode In width
  rw [sub_node_order hd]
  show _ ∧ idx < _ ↔ f.maxDepth - depth ≤ f.maxDepth ∧ idx < _
  omega

theorem HasNode.toIn (hf : f.Ok) (h : f.HasNode depth idx) : f.In (f.node depth idx) :=
  (hasNode_iff hf h.le_maxDepth).mp h

theorem width_node (hf : f.Ok) (hd : depth ≤ f.maxDepth) :
    f.width (f.node depth idx).order = Usize.shl f.treeCnt depth := by
  have hstart := offsetStart_level hf (f.node depth idx).order
  rw [sub_node_order hd] at hstart
  exact hstart.symm

theorem cursorOn_eq (hf : f.Ok) (hd : depth ≤ f.maxDepth) :
    f.cursorOn depth idx = f.cursorAt (f.node depth idx) := by
  refine Cursor.ext (sub_node_order hd).symm rfl ?_
  rw [cursorAt, width_node hf hd]
  rfl

theorem cell_eq (hf : f.Ok) (hd : depth ≤ f.maxDepth) :
    f.cell depth idx = f.pos (f.node depth idx) := by
  rw [pos, width_node hf hd]
  rfl

/-! ### Moves and accesses -/

theorem node_parent (h : depth ≠ 0) (hd : depth ≤ f.maxDepth) :
    (f.node depth idx).parent = f.node (depth - 1) (idx / 2) := by
  refine Node.ext ?_ rfl
  show f.maxDepth - depth + 1 = f.maxDepth - (depth - 1)
  omega

theorem node_left : (f.node depth idx).left = f.node (depth + 1) (2 * idx) :=
  Node.ext (Nat.sub_sub _ _ _) rfl

theorem node_right : (f.node depth idx).right = f.node (depth + 1) (2 * idx + 1) :=
  Node.ext (Nat.sub_sub _ _ _) rfl

/-- To fill one cell of a level is to write it. -/
theorem fillLevel_single (hf : f.Ok) {n : Node} (hn : f.In n) (x : α) :
    f.fillLevel n.order n.idx (n.idx + 1) x = f.write n x := by
  refine ext_look (hf.fillLevel _ _ _ x) rfl rfl rfl (fun m => ?_) fun i hi => ?_
  · rw [look_fillLevel hf hn.1 hn.2, look_write hf hn]
    have hiff : (m.order = n.order ∧ n.idx ≤ m.idx ∧ m.idx < n.idx + 1) ↔ m = n := by
      rw [Node.ext_iff]
      omega
    simp only [hiff]
  · have hlen := (same_fillLevel hf (a := n.idx) hn.2 x).length hf
    rw [hlen] at hi
    rw [(same_fillLevel hf hn.2 x).rest i hi, (same_write hf hn x).rest i hi]

theorem Ok.offset_lt (hf : f.Ok) (h : f.HasNode depth idx) :
    (f.cursorOn depth idx).offset < Usize.modulus := by
  have hidx := (h.toIn hf).2
  have hlen := two_mul_width_le hf (f.node depth idx).order
  have hfits := hf.fits
  rw [← hf.len] at hfits
  rw [cursorOn_eq hf h.le_maxDepth]
  show f.width (f.node depth idx).order + (f.node depth idx).idx < _
  omega

theorem Ok.children (hf : f.Ok) (h : f.HasNode depth idx) (hne : depth ≠ f.maxDepth) :
    f.HasNode (depth + 1) (2 * idx) ∧ f.HasNode (depth + 1) (2 * idx + 1) := by
  have hd := h.le_maxDepth
  rw [hasNode_iff hf (by omega), hasNode_iff hf (by omega), ← node_left, ← node_right]
  have hpos := h.order_pos hne
  exact ⟨(h.toIn hf).left hpos, (h.toIn hf).right hpos⟩

theorem Ok.relatives (hf : f.Ok) (h : f.HasNode depth idx) (hne : depth ≠ 0) :
    f.HasNode (depth - 1) (idx / 2) ∧ f.HasNode depth (idx ^^^ 1) := by
  have hd := h.le_maxDepth
  rw [hasNode_iff hf (by omega), hasNode_iff hf hd, ← node_parent hne hd]
  have hlt := h.order_lt hne
  exact ⟨(h.toIn hf).parent hlt, (h.toIn hf).sibling hlt⟩

theorem Ok.down (hf : f.Ok) (h : f.HasNode depth idx) :
    (f.cursorOn depth idx).left = (if depth = f.maxDepth then (false, f.cursorOn depth idx)
      else (true, f.cursorOn (depth + 1) (2 * idx))) ∧
    (f.cursorOn depth idx).right = (if depth = f.maxDepth then (false, f.cursorOn depth idx)
      else (true, f.cursorOn (depth + 1) (2 * idx + 1))) := by
  have hd := h.le_maxDepth
  by_cases hmax : depth = f.maxDepth
  · rw [if_pos hmax, if_pos hmax]
    exact ⟨if_pos hmax, if_pos hmax⟩
  · rw [if_neg hmax, if_neg hmax, cursorOn_eq hf hd, cursorOn_eq hf (by omega),
      cursorOn_eq hf (by omega), ← node_left, ← node_right]
    exact cursorAt_down (h.order_pos hmax) (h.toIn hf).1

theorem Ok.up (hf : f.Ok) (h : f.HasNode depth idx) :
    (f.cursorOn depth idx).up = (if depth = 0 then (false, f.cursorOn depth idx)
      else (true, f.cursorOn (depth - 1) (idx / 2))) ∧
    (f.cursorOn depth idx).sibling = (if depth = 0 then (false, f.cursorOn depth idx)
      else (true, f.cursorOn depth (idx ^^^ 1))) := by
  have hd := h.le_maxDepth
  by_cases hzero : depth = 0
  · rw [if_pos hzero, if_pos hzero]
    exact ⟨if_pos hzero, if_pos hzero⟩
  · rw [if_neg hzero, if_neg hzero, cursorOn_eq hf hd, cursorOn_eq hf (by omega),
      cursorOn_eq hf hd, ← node_parent hzero hd]
    exact ⟨cursorAt_up (h.order_lt hzero), cursorAt_sibling (h.order_lt hzero)⟩

theorem Ok.read (hf : f.Ok) (h : f.HasNode depth idx) :
    ∃ level x, (slice depth).run f = .ok level f ∧ level[idx]? = some x ∧
      (f.cursorOn depth idx).get.run f = .ok x f := by
  have hd := h.le_maxDepth
  obtain ⟨x, hx⟩ := Option.isSome_iff_exists.mp ((look_isSome hf).mpr (h.toIn hf))
  have hslice := slice_run hf (f.node depth idx).order
  rw [sub_node_order hd] at hslice
  refine ⟨_, x, hslice, (level_getElem? f (h.toIn hf).1 idx).trans hx, ?_⟩
  rw [cursorOn_eq hf hd]
  exact get_cursorAt hx

theorem Ok.write_single (hf : f.Ok) (h : f.HasNode depth idx) (x : α) :
    ∃ g, (sliceFill depth idx (idx + 1) x).run f = .ok () g ∧
      ((f.cursorOn depth idx).set x).run f = .ok () g := by
  have hd := h.le_maxDepth
  have hfill := sliceFill_run hf (Nat.le_succ _) (h.toIn hf).2 x
  rw [sub_node_order hd, fillLevel_single hf (h.toIn hf)] at hfill
  refine ⟨_, hfill, ?_⟩
  rw [cursorOn_eq hf hd]
  exact set_cursorAt hf (h.toIn hf) x

theorem Ok.navigates (hf : f.Ok) (h : f.HasNode depth idx) : f.Navigates depth idx := by
  have hd := h.le_maxDepth
  have hcursor := cursor_run hf (h.toIn hf)
  rw [sub_node_order hd, ← cursorOn_eq hf hd] at hcursor
  have hidx := idx_cursorAt hf (f.node depth idx)
  rw [← cursorOn_eq hf hd] at hidx
  exact
    { cursor := hcursor
      cursorMut := hcursor
      offset_lt := hf.offset_lt h
      idx_eq := hidx
      left := (hf.down h).1
      right := (hf.down h).2
      children := hf.children h
      up := (hf.up h).1
      sibling := (hf.up h).2
      relatives := hf.relatives h
      read := hf.read h
      write := hf.write_single h }

theorem Ok.laidOut (hf : f.Ok) : f.LaidOut where
  injective := by
    rintro ⟨d, i⟩ (hn : f.HasNode d i) ⟨e, j⟩ (hm : f.HasNode e j) (heq : f.cell d i = f.cell e j)
    have hd := hn.le_maxDepth
    have he := hm.le_maxDepth
    rw [cell_eq hf hd, cell_eq hf he] at heq
    have hnode := Node.ext_iff.mp (pos_injective (hn.toIn hf) (hm.toIn hf) heq)
    have horder : f.maxDepth - d = f.maxDepth - e := hnode.1
    exact Prod.ext (show d = e by omega) hnode.2
  bounded := by
    intro depth idx h
    have hstop := offsetStart_eq hf (Nat.le_refl f.treeDepth)
    show _ < f.offsetStart f.treeDepth
    rw [hstop, ← hf.len, cell_eq hf h.le_maxDepth]
    exact pos_lt hf (h.toIn hf)
  navigates := fun _ _ h => hf.navigates h

/-! ## Forests that do not fit -/

/-- The last level that starts below `m`. -/
theorem exists_level_lt {c m n : ℕ} (h0 : c < m) (hn : m ≤ c * 2 ^ n) :
    ∃ d < n, c * 2 ^ d < m ∧ m ≤ c * 2 ^ (d + 1) := by
  induction n with
  | zero => omega
  | succ n ih =>
      rcases Nat.lt_or_ge (c * 2 ^ n) m with hlt | hge
      · exact ⟨n, Nat.lt_succ_self n, hlt, hn⟩
      · obtain ⟨d, hd, hlevel⟩ := ih hge
        exact ⟨d, Nat.lt_succ_of_lt hd, hlevel⟩

/-- On the last level that starts inside the machine word the end of the level is out, so that it
comes before the start, and no cursor can be made. -/
theorem fits_of_laidOut (hcnt : 0 < f.treeCnt) (hlt : f.treeCnt < Usize.modulus)
    (h : f.LaidOut) : f.treeCnt * 2 ^ f.treeDepth < Usize.modulus := by
  by_contra hover
  obtain ⟨d, hd, hstart, hstop⟩ := exists_level_lt hlt (Nat.le_of_not_lt hover)
  have hnode : f.HasNode d 0 := ⟨hd, Nat.mul_pos hcnt (Nat.two_pow_pos d)⟩
  have hrun := (h.navigates d 0 hnode).cursor
  unfold cursor at hrun
  rw [Code.get_bind, Code.bind_ok (Code.assert_of (decide_eq_true (Nat.le_of_lt hd)) _ f)] at hrun
  obtain ⟨_, _, hsub, -⟩ := Code.bind_eq_ok.mp hrun
  have hle := (Usize.sub_eq_ok.mp hsub).1
  simp only [offsetStart, Usize.shl, Nat.shiftLeft_eq] at hle
  rw [Nat.pow_succ, ← Nat.mul_assoc] at hle hstop
  rw [Nat.mod_eq_of_lt hstart] at hle
  generalize f.treeCnt * 2 ^ d = a at *
  unfold Usize.modulus Usize.bits at *
  omega

/-- A forest is laid out exactly if the number of its cells is a `usize`. -/
theorem laidOut_iff (hcnt : 1 ≤ f.treeCnt) (hdepth : 1 ≤ f.treeDepth) (hf : f.Built) :
    f.LaidOut ↔ f.treeCnt * 2 ^ f.treeDepth < Usize.modulus := by
  constructor
  · exact fits_of_laidOut hcnt hf.cnt_lt
  · intro hfits
    exact (hf.ok hdepth hfits).laidOut

/-- Every forest that `new` returns is built so. -/
theorem new_built {elem : Layout} {treeCnt treeDepth : ℕ} {alloc : Layout → Code σ (Option ℕ)}
    {fill : α} {m m' : σ} (hsize : 0 < elem.size) (hlt : treeCnt < Usize.modulus)
    (h : (new elem treeCnt treeDepth alloc fill).run m = .ok (some f) m') : f.Built := by
  refine ⟨?_, length_of_new hsize h⟩
  obtain ⟨l, ptr, -, rfl⟩ := new_eq h
  exact hlt

/-- Three trees of two levels. -/
theorem laidOut_threeTrees : ∃ f : ArrayForest UInt8,
    (new (⟨1, 1, Layout.align_byte, by decide⟩ : Layout) 3 2
      (fun _ => (pure (some 0) : Code Unit (Option ℕ))) 0).run () = .ok (some f) () ∧
    f.LaidOut := by
  have hnew : (new (⟨1, 1, Layout.align_byte, by decide⟩ : Layout) 3 2
      (fun _ => (pure (some 0) : Code Unit (Option ℕ))) 0).run ()
        = .ok (some (⟨List.replicate 12 0, 0, 2, 3⟩ : ArrayForest UInt8)) () := rfl
  have hbuilt := new_built (by decide) (by decide) hnew
  exact ⟨_, hnew, (laidOut_iff (by decide) (by decide) hbuilt).mpr (by decide)⟩

/-- `2 ^ 63` trees of one level: the length of the buffer is computed as 0, `new` returns, and no
cursor can be made. -/
theorem laidOut_fails : ∃ f : ArrayForest UInt8,
    (new (⟨1, 1, Layout.align_byte, by decide⟩ : Layout) (2 ^ 63) 1
      (fun _ => (pure (some 0) : Code Unit (Option ℕ))) 0).run () = .ok (some f) () ∧
    f.buf = [] ∧ f.HasNode 0 0 ∧ (cursor 0 0).run f = .error .overflow f ∧ ¬ f.LaidOut := by
  refine ⟨⟨[], 0, 1, 2 ^ 63⟩, rfl, rfl, ⟨by decide, by decide⟩, rfl, fun h => ?_⟩
  exact absurd (fits_of_laidOut (by decide) (by decide) h) (by decide)

end ArrayForest

end Koe
