/-
# `KoeOs.Phy.BuddySpec` — one specification for each buddy operation

Each operation is described by what it does to the values of the nodes,
`ArrayForest.val`, in the words of the max-tree library:

    fixupMap at n       fixup val d n
    free                fixup (update val n (free order)) d n
    freeForced          fixup (fillBlock val idx order) d n
    reserve             fixup (update val n reserved) d n, for the `n` it finds
                        (`BuddySystem.find`, the search as a recursion)

with `d` the number of levels above `n`.  Later modules use these and never
unfold an operation again.
-/
import KoeOs.Phy.Buddy
import KoeOs.Lib.Pool

namespace Koe

open Node MaxTree

namespace Buddy

theorem le_def {a b : Buddy} : a ≤ b ↔ a.val ≤ b.val := Iff.rfl

theorem lt_def {a b : Buddy} : a < b ↔ a.val < b.val := Iff.rfl

instance : OrderBot Buddy where
  bot := reserved
  bot_le _ := Nat.zero_le _

theorem strictMono_free : StrictMono free := fun _ _ h =>
  lt_def.mpr (Nat.succ_lt_succ h)

theorem bot_lt_free : (⊥ : Buddy) < free 0 := lt_def.mpr (Nat.succ_pos 0)

theorem free_le_iff {o : ℕ} {b : Buddy} : free o ≤ b ↔ o < b.val := le_def

theorem order_run {σ : Type} {b : Buddy} (h : 1 ≤ b.val) (s : σ) :
    b.order.run s = .ok (b.val - 1) s := Usize.sub_of_le h s

@[simp] theorem isReserved_iff {b : Buddy} : b.isReserved = true ↔ b = reserved := by
  simp [isReserved, reserved, Buddy.ext_iff]

@[simp] theorem free_ne_reserved (o : ℕ) : free o ≠ reserved := fun h =>
  Nat.succ_ne_zero o (congrArg Buddy.val h)

end Buddy

namespace ArrayForest

variable {f g : ArrayForest Buddy} {n : Node}

/-- What a node records; reserved outside the forest. -/
def val (f : ArrayForest Buddy) (n : Node) : Buddy := (f.look n).getD Buddy.reserved

theorem look_eq_val (hf : f.Ok) (hn : f.In n) : f.look n = some (f.val n) := by
  obtain ⟨x, hx⟩ := Option.isSome_iff_exists.mp ((look_isSome hf).mpr hn)
  rw [val, hx]; rfl

theorem val_of_not_in (hn : ¬ f.In n) : f.val n = Buddy.reserved := by
  rw [val, look_of_not_in hn]; rfl

theorem val_write (hf : f.Ok) (hn : f.In n) (x : Buddy) :
    (f.write n x).val = Function.update f.val n x := by
  funext m
  rw [val, look_write hf hn]
  by_cases he : m = n
  · rw [if_pos he, he, Function.update_self]; rfl
  · rw [if_neg he, Function.update_of_ne he]; rfl

theorem val_fillLevel (hf : f.Ok) {k a b : ℕ} (hk : k ≤ f.maxDepth) (hb : b ≤ f.width k)
    (x : Buddy) (m : Node) :
    (f.fillLevel k a b x).val m = if m.order = k ∧ a ≤ m.idx ∧ m.idx < b then x else f.val m := by
  rw [val, look_fillLevel hf hk hb]
  split <;> rfl

/-- Forests that are `Same` and record the same are equal. -/
theorem Same.eq_of_val (hf : f.Ok) (hs : f.Same g) (h : ∀ n, f.In n → g.val n = f.val n) :
    g = f := by
  refine ext_look hs.ok hs.ptr hs.depth hs.cnt (fun n => ?_) fun i hi => hs.rest i ?_
  · by_cases hn : f.In n
    · rw [look_eq_val hs.ok ((hs.in_iff n).mpr hn), look_eq_val hf hn, h n hn]
    · rw [look_of_not_in hn, look_of_not_in fun hg => hn ((hs.in_iff n).mp hg)]
  · rw [hs.length hf, hs.cnt] at hi; exact hi

end ArrayForest

namespace BuddySystem

open ArrayForest

/-! ## `fixup_map` -/

theorem fixupLoop_run (d : ℕ) : ∀ (f : ArrayForest Buddy) (n : Node), f.Ok → f.In n →
    f.maxDepth - n.order = d → ∃ g, (fixupLoop d (f.cursorAt n)).run f = .ok () g ∧ f.Same g ∧
      g.val = fixup f.val d n := by
  induction d with
  | zero => intro f n hf _ _; exact ⟨f, rfl, Same.refl hf, rfl⟩
  | succ d ih =>
      intro f n hf hn hd
      have hlt : n.order < f.maxDepth := by omega
      have hsib := hn.sibling hlt
      have hpar := hn.parent hlt
      have hup : f.cursorAt n.parent = (f.cursorAt n.sibling).up.2 := by
        rw [cursorAt_up (n := n.sibling) hlt, sibling_parent]
      -- both sides compare the parent with the recomputed value
      by_cases hstop : f.val n.parent = max (f.val n) (f.val n.sibling)
      · refine ⟨f, ?_, Same.refl hf, ?_⟩
        · simp only [fixupLoop]
          rw [Code.bind_ok (get_cursorAt (look_eq_val hf hn)), cursorAt_sibling hlt,
            Code.bind_ok (get_cursorAt (look_eq_val hf hsib)), ← hup,
            Code.bind_ok (get_cursorAt (look_eq_val hf hpar)), if_pos hstop]
          rfl
        · simp only [fixup, hstop, if_true]
      · obtain ⟨g, hg, hs, hv⟩ := ih (f.write n.parent (max (f.val n) (f.val n.sibling))) n.parent
          (hf.write _ _) hpar (by rw [write_maxDepth, parent_order]; omega)
        refine ⟨g, ?_, (same_write hf hpar _).trans hf hs, ?_⟩
        · simp only [fixupLoop]
          rw [Code.bind_ok (get_cursorAt (look_eq_val hf hn)), cursorAt_sibling hlt,
            Code.bind_ok (get_cursorAt (look_eq_val hf hsib)), ← hup,
            Code.bind_ok (get_cursorAt (look_eq_val hf hpar)), if_neg hstop,
            Code.bind_ok (set_cursorAt hf hpar _)]
          exact hg
        · rw [hv, val_write hf hpar]
          simp only [fixup, hstop, if_false]

theorem fixupMap_run {f : ArrayForest Buddy} {n : Node} (hf : f.Ok) (hn : f.In n) :
    ∃ g, (fixupMap (f.cursorAt n)).run f = .ok () g ∧ f.Same g ∧
      g.val = fixup f.val (f.maxDepth - n.order) n :=
  fixupLoop_run _ f n hf hn rfl

/-- The forest has room for its orders, and the search stack for its depth. -/
structure Ok (s : BuddySystem) : Prop where
  map : s.map.Ok
  order : s.maxOrder = s.map.maxDepth
  small : s.maxOrder ≤ buddyMaxOrder

variable {s : BuddySystem}

theorem Ok.of_same (hs : s.Ok) {g : ArrayForest Buddy} (h : s.map.Same g) :
    Ok { s with map := g } :=
  ⟨h.ok, hs.order.trans h.maxDepth.symm, hs.small⟩

/-! ## `free` -/

theorem orderToDepth_run {f : ArrayForest Buddy} {order : ℕ} (h : order ≤ f.maxDepth) :
    (orderToDepth order).run f = .ok (f.maxDepth - order) f := by
  unfold orderToDepth
  rw [Code.get_bind, Usize.sub_of_le h]

theorem free_run (hs : s.Ok) {idx order : ℕ} (hn : s.map.In ⟨order, idx >>> order⟩)
    (hv : s.map.val ⟨order, idx >>> order⟩ = Buddy.reserved) :
    ∃ g, (free idx order).run s = .ok () { s with map := g } ∧ s.map.Same g ∧
      g.val = fixup (Function.update s.map.val ⟨order, idx >>> order⟩ (Buddy.free order))
        (s.map.maxDepth - order) ⟨order, idx >>> order⟩ := by
  obtain ⟨g, hg, hsame, hval⟩ := fixupMap_run (hs.map.write _ (Buddy.free order))
    ((write_in _ _ _).mpr hn)
  refine ⟨g, Code.zoom_ok ?_, (same_write hs.map hn _).trans hs.map hsame, ?_⟩
  · rw [Code.bind_ok (orderToDepth_run hn.1), Code.bind_ok (cursorMut_run hs.map hn),
      Code.bind_ok (get_cursorAt (look_eq_val hs.map hn)),
      Code.bind_ok (Code.assert_of (Buddy.isReserved_iff.mpr hv) _ _),
      Code.bind_ok (set_cursorAt hs.map hn _)]
    exact hg
  · rw [hval, val_write hs.map hn]; rfl

/-- The assertion stands before the first write. -/
theorem free_double (hs : s.Ok) {idx order : ℕ} (hn : s.map.In ⟨order, idx >>> order⟩)
    (hv : s.map.val ⟨order, idx >>> order⟩ ≠ Buddy.reserved) :
    (free idx order).run s = .error (.assertion "BuddySystem: Double Free!") s := by
  have hfalse : (s.map.val ⟨order, idx >>> order⟩).isReserved = false := by
    rw [Bool.eq_false_iff]; exact fun h => hv (Buddy.isReserved_iff.mp h)
  refine Code.zoom_error (t := s.map) ?_
  rw [Code.bind_ok (orderToDepth_run hn.1), Code.bind_ok (cursorMut_run hs.map hn),
    Code.bind_ok (get_cursorAt (look_eq_val hs.map hn)), hfalse,
    Code.bind_error (Code.assert_false _ _)]

/-! ## `free_forced` -/

/-- The values after the loop of `free_forced`: on the level of order `k` the
`2 ^ (order - k)` nodes from `idx >> k` on are free. -/
def fillBlock (v : Node → Buddy) (idx order : ℕ) (m : Node) : Buddy :=
  if m.order ≤ order ∧ idx >>> m.order ≤ m.idx ∧ m.idx < (idx >>> m.order) + 2 ^ (order - m.order)
  then Buddy.free m.order else v m

/-- The block stays inside each level, whatever its alignment. -/
theorem fill_le_width {f : ArrayForest Buddy} {idx order k : ℕ} (hk : k ≤ order)
    (ho : order ≤ f.maxDepth) (hb : idx + 2 ^ order ≤ f.width 0) :
    (idx >>> k) + 2 ^ (order - k) ≤ f.width k := by
  have hw : f.width 0 = f.width k * 2 ^ k := by
    have he : f.maxDepth - 0 = (f.maxDepth - k) + k := by omega
    rw [ArrayForest.width, ArrayForest.width, he, Nat.pow_add, Nat.mul_assoc]
  have hp : 2 ^ order = 2 ^ (order - k) * 2 ^ k := by rw [← Nat.pow_add]; congr 1; omega
  rw [Nat.shiftRight_eq_div_pow]
  refine Nat.le_of_mul_le_mul_right ?_ (Nat.two_pow_pos k)
  calc (idx / 2 ^ k + 2 ^ (order - k)) * 2 ^ k
      = idx / 2 ^ k * 2 ^ k + 2 ^ (order - k) * 2 ^ k := Nat.add_mul _ _ _
    _ ≤ idx + 2 ^ order := by rw [hp]; exact Nat.add_le_add_right (Nat.div_mul_le_self _ _) _
    _ ≤ f.width k * 2 ^ k := by rw [← hw]; exact hb

/-- The loop over the levels of order `c - 1, …, 0`. -/
theorem fillLoop_run {idx order : ℕ} (c : ℕ) : ∀ f : ArrayForest Buddy, f.Ok →
    order ≤ f.maxDepth → c ≤ order + 1 → idx + 2 ^ order ≤ f.width 0 →
    ∃ g, ((List.range' (f.maxDepth + 1 - c) c).forM
        (fillDepth idx f.maxDepth (f.maxDepth - order))).run f = .ok () g ∧ f.Same g ∧
      ∀ m, g.val m = if m.order < c ∧ idx >>> m.order ≤ m.idx ∧
        m.idx < (idx >>> m.order) + 2 ^ (order - m.order) then Buddy.free m.order else f.val m := by
  induction c with
  | zero => intro f hf _ _ _; exact ⟨f, rfl, Same.refl hf, fun m => by simp⟩
  | succ c ih =>
      intro f hf ho hc hb
      have hw := fill_le_width (k := c) (by omega) ho hb
      have hk : c ≤ f.maxDepth := by omega
      have hsame := same_fillLevel hf (a := idx >>> c) hw (Buddy.free c)
      obtain ⟨g, hg, hs, hv⟩ := ih (f.fillLevel c (idx >>> c) ((idx >>> c) + 2 ^ (order - c))
        (Buddy.free c)) hsame.ok ho (by omega) hb
      refine ⟨g, ?_, hsame.trans hf hs, fun m => ?_⟩
      · have he : f.maxDepth + 1 - (c + 1) = f.maxDepth - c := by omega
        have hc1 : f.maxDepth - c + 1 = f.maxDepth + 1 - c := by omega
        have hord : f.maxDepth - (f.maxDepth - c) = c := by omega
        have hcnt : f.maxDepth - c - (f.maxDepth - order) = order - c := by omega
        have hbody : (fillDepth idx f.maxDepth (f.maxDepth - order) (f.maxDepth - c)).run f
            = .ok () (f.fillLevel c (idx >>> c) ((idx >>> c) + 2 ^ (order - c))
              (Buddy.free c)) := by
          unfold fillDepth
          simp only [hord, hcnt, Nat.one_shiftLeft]
          exact sliceFill_run hf (Nat.le_add_right _ _) hw _
        rw [he, List.range'_succ, hc1]
        refine (Code.bind_ok hbody).trans ?_
        exact hg
      · rw [hv m, val_fillLevel hf hk hw]
        -- level `c` is written now, the levels below it by the rest of the loop
        by_cases hmc : m.order = c
        · subst hmc
          simp
        · by_cases hlt : m.order < c
          · have hlt' : m.order < c + 1 := by omega
            simp [hmc, hlt, hlt']
          · have hlt' : ¬ m.order < c + 1 := by omega
            simp [hmc, hlt, hlt']

theorem freeForced_run (hs : s.Ok) {idx order : ℕ} (ho : order ≤ s.maxOrder)
    (hb : idx + 2 ^ order ≤ s.map.width 0) :
    ∃ g, (freeForced idx order).run s = .ok () { s with map := g } ∧ s.map.Same g ∧
      g.val = fixup (fillBlock s.map.val idx order) (s.map.maxDepth - order)
        ⟨order, idx >>> order⟩ := by
  have hod : order ≤ s.map.maxDepth := hs.order ▸ ho
  obtain ⟨f, hf, hsame, hval⟩ := fillLoop_run (order + 1) s.map hs.map hod (by omega) hb
  have hw := fill_le_width (f := s.map) (k := order) (Nat.le_refl _) hod hb
  have hn : f.In ⟨order, idx >>> order⟩ := by
    rw [hsame.in_iff]
    refine ⟨hod, ?_⟩
    simp only [Nat.sub_self, Nat.pow_zero] at hw ⊢
    omega
  obtain ⟨g, hg, hsame', hval'⟩ := fixupMap_run hsame.ok hn
  refine ⟨g, ?_, hsame.trans hs.map hsame', ?_⟩
  · unfold freeForced
    rw [Code.get_bind, Code.bind_ok (Code.assert_of (decide_eq_true ho) _ s)]
    refine Code.zoom_ok ?_
    have hcnt : s.map.maxDepth + 1 - (s.map.maxDepth - order) = order + 1 := by omega
    have hstart : s.map.maxDepth - order = s.map.maxDepth + 1 - (order + 1) := by omega
    have hcur := cursorMut_run hsame.ok hn
    rw [hsame.maxDepth] at hcur
    rw [Code.get_bind, Code.bind_ok (Usize.sub_of_le hod _), hcnt]
    simp only [← hstart] at hf
    rw [Code.bind_ok hf, Code.bind_ok hcur]
    exact hg
  · rw [hval', hsame.maxDepth]
    congr 1
    funext m
    simp only [hval m, fillBlock, Nat.lt_succ_iff]

/-! ## `reserve` -/

/-- The search of `reserve` as a recursion: the block it stops at below the node
of order `k` and index `j`. -/
def find (v : Node → Buddy) (order : ℕ) : ℕ → ℕ → Option ℕ
  | 0, j =>
      if v ⟨0, j⟩ < Buddy.free order then none
      else if v ⟨0, j⟩ = Buddy.free order ∧ order = 0 then some j else none
  | k + 1, j =>
      if v ⟨k + 1, j⟩ < Buddy.free order then none
      else if v ⟨k + 1, j⟩ = Buddy.free order ∧ order = k + 1 then some j
      else (find v order k (2 * j)).or (find v order k (2 * j + 1))

/-- A node never records more than its own order. -/
def Bounded (f : ArrayForest Buddy) : Prop := ∀ n, f.In n → f.val n ≤ Buddy.free n.order

variable {f : ArrayForest Buddy} {order : ℕ}

theorem depthToOrder_cursorAt {n : Node} (hn : f.In n) :
    (depthToOrder (f.cursorAt n).depth).run f = .ok n.order f := by
  have hle : f.maxDepth - n.order ≤ f.maxDepth := Nat.sub_le _ _
  unfold depthToOrder
  rw [Code.get_bind, ArrayForest.cursorAt, Usize.sub_of_le hle, Nat.sub_sub_self hn.1]

theorem search_prune (hf : f.Ok) {n : Node} (hn : f.In n) (h : f.val n < Buddy.free order)
    (fuel : ℕ) (stack : List Cursor) :
    (search order (fuel + 1) (some (f.cursorAt n)) stack).run f
      = (search order fuel stack.head? stack.tail).run f := by
  rw [search, Code.bind_ok (get_cursorAt (look_eq_val hf hn))]
  by_cases hr : f.val n = Buddy.reserved
  · rw [if_pos (Buddy.isReserved_iff.mpr hr)]
  · have hpos : 1 ≤ (f.val n).val := Nat.one_le_iff_ne_zero.mpr fun h0 => hr (Buddy.ext h0)
    have hlt : (f.val n).val - 1 < order := by
      have := Buddy.lt_def.mp h
      simp only [Buddy.free] at this
      omega
    rw [if_neg (fun hb => hr (Buddy.isReserved_iff.mp hb)),
      Code.bind_ok (depthToOrder_cursorAt hn), Code.bind_ok (Buddy.order_run hpos f), if_pos hlt]

/-- A node that records enough and is not the block itself: look below it, and
come back to its right child. -/
theorem search_descend (hf : f.Ok) (hsmall : f.maxDepth ≤ buddyMaxOrder) {n : Node} (hn : f.In n)
    (ho : 0 < n.order) (h : ¬ f.val n < Buddy.free order)
    (hne : ¬ (f.val n = Buddy.free order ∧ order = n.order)) (fuel : ℕ) {stack : List Cursor}
    (hs : stack.length + n.order ≤ f.maxDepth) :
    (search order (fuel + 1) (some (f.cursorAt n)) stack).run f
      = (search order fuel (some (f.cursorAt n.left)) (f.cursorAt n.right :: stack)).run f := by
  have hge := Buddy.le_def.mp (not_lt.mp h)
  simp only [Buddy.free] at hge
  have hfound : ¬ ((f.val n).val - 1 = order ∧ (f.val n).val - 1 = n.order) := fun ⟨h1, h2⟩ =>
    hne ⟨Buddy.ext (by simp only [Buddy.free]; omega), by omega⟩
  have hcap : stack.length < buddyMaxDepth := by
    simp only [buddyMaxDepth]
    omega
  have hres : ¬ (f.val n).isReserved = true := fun hb => by
    rw [Buddy.isReserved_iff.mp hb] at hge
    exact Nat.not_succ_le_zero _ hge
  have hpos : 1 ≤ (f.val n).val := by omega
  have hbig : ¬ (f.val n).val - 1 < order := by omega
  obtain ⟨hleft, hright⟩ := cursorAt_down ho hn.1
  rw [search, Code.bind_ok (get_cursorAt (look_eq_val hf hn)), if_neg hres,
    Code.bind_ok (depthToOrder_cursorAt hn), Code.bind_ok (Buddy.order_run hpos f),
    if_neg hbig, if_neg hfound, hright, hleft]
  simp only [if_pos hcap]
  rfl

theorem search_hit (hf : f.Ok) {n : Node} (hn : f.In n) (h : f.val n = Buddy.free n.order)
    (fuel : ℕ) (stack : List Cursor) :
    (search n.order (fuel + 1) (some (f.cursorAt n)) stack).run f
      = .ok (some (f.cursorAt n)) f := by
  have hres : ¬ (f.val n).isReserved = true := fun hb =>
    Buddy.free_ne_reserved _ (h.symm.trans (Buddy.isReserved_iff.mp hb))
  have hval : (f.val n).val - 1 = n.order := by rw [h]; rfl
  have hpos : 1 ≤ (f.val n).val := by rw [h]; exact Nat.succ_pos _
  rw [search, Code.bind_ok (get_cursorAt (look_eq_val hf hn)), if_neg hres,
    Code.bind_ok (depthToOrder_cursorAt hn), Code.bind_ok (Buddy.order_run hpos f), hval,
    if_neg (lt_irrefl _), if_pos ⟨rfl, rfl⟩]
  rfl

/-- What the search returns once it is done below a node: the block it found, or
whatever the rest of the stack gives. -/
def searchRest (f : ArrayForest Buddy) (order fuel : ℕ) (stack : List Cursor) :
    Option ℕ → EStateM.Result Panic (ArrayForest Buddy) (Option Cursor)
  | some i => .ok (some (f.cursorAt ⟨order, i⟩)) f
  | none => (search order fuel stack.head? stack.tail).run f

/-- The search visits each node below `⟨k, j⟩` at most once, and the stack holds
at most one cursor for each level above. -/
theorem search_run (order : ℕ) (hf : f.Ok) (hsmall : f.maxDepth ≤ buddyMaxOrder)
    (hb : Bounded f) (k : ℕ) :
    ∀ (j : ℕ) (stack : List Cursor), f.In ⟨k, j⟩ → stack.length + k ≤ f.maxDepth →
      ∃ c < 2 ^ (k + 1), ∀ fuel,
        (search order (fuel + c) (some (f.cursorAt ⟨k, j⟩)) stack).run f
          = searchRest f order fuel stack (find f.val order k j) := by
  induction k with
  | zero =>
      intro j stack hn _
      refine ⟨1, by decide, fun fuel => ?_⟩
      rw [find]
      by_cases hp : f.val ⟨0, j⟩ < Buddy.free order
      · rw [if_pos hp, search_prune hf hn hp]; rfl
      · have hle : Buddy.free order ≤ Buddy.free 0 := (not_lt.mp hp).trans (hb _ hn)
        obtain rfl : order = 0 := Nat.le_zero.mp (Buddy.strictMono_free.le_iff_le.mp hle)
        have hv : f.val ⟨0, j⟩ = Buddy.free 0 := le_antisymm (hb _ hn) (not_lt.mp hp)
        rw [if_neg hp, if_pos ⟨hv, rfl⟩]
        exact search_hit hf hn hv fuel stack
  | succ k ih =>
      intro j stack hn hs
      rw [find]
      by_cases hp : f.val ⟨k + 1, j⟩ < Buddy.free order
      · refine ⟨1, Nat.one_lt_two_pow (by omega), fun fuel => ?_⟩
        rw [if_pos hp, search_prune hf hn hp]; rfl
      · by_cases hit : f.val ⟨k + 1, j⟩ = Buddy.free order ∧ order = k + 1
        · refine ⟨1, Nat.one_lt_two_pow (by omega), fun fuel => ?_⟩
          obtain ⟨hv, rfl⟩ := hit
          rw [if_neg hp, if_pos ⟨hv, rfl⟩]
          exact search_hit hf hn hv fuel stack
        · -- one step here, then the left tree, then, if nothing was there, the right one
          obtain ⟨a, ha, hleft⟩ := ih (2 * j) (f.cursorAt ⟨k, 2 * j + 1⟩ :: stack)
            (hn.left (Nat.succ_pos k)) (by simp only [List.length_cons]; omega)
          obtain ⟨b, hb', hright⟩ := ih (2 * j + 1) stack (hn.right (Nat.succ_pos k)) (by omega)
          refine ⟨b + a + 1, by rw [Nat.pow_succ] at *; omega, fun fuel => ?_⟩
          rw [if_neg hp, if_neg hit, ← Nat.add_assoc, ← Nat.add_assoc,
            search_descend hf hsmall hn (Nat.succ_pos k) hp hit _ hs]
          refine (hleft (fuel + b)).trans ?_
          cases hl : find f.val order k (2 * j) with
          | some i => rfl
          | none => exact hright fuel

theorem holdsMore_iff {b : Buddy} : holdsMore order b = true ↔ Buddy.free order < b := by
  simp only [holdsMore, Buddy.isFree, Buddy.isReserved, Buddy.lt_def, Buddy.free, Bool.and_eq_true,
    Bool.not_eq_true', beq_eq_false_iff_ne, decide_eq_true_eq]
  omega

/-- The node of the root `r`. -/
def root (s : BuddySystem) (r : ℕ) : Node := ⟨s.map.maxDepth, r⟩

theorem root_getElem? (hs : s.Ok) {r : ℕ} (hr : r < s.map.treeCnt) :
    (s.map.buf.take s.map.treeCnt)[r]? = some (s.map.val (s.root r)) :=
  (roots_getElem? s.map r).trans (look_eq_val hs.map (root_in.mpr hr))

/-- No root records more than `order`. -/
theorem reserve_none (hs : s.Ok) (ho : order ≤ s.maxOrder)
    (h : ∀ r < s.map.treeCnt, ¬ Buddy.free order < s.map.val (s.root r)) :
    (reserve order).run s = .ok none s := by
  have hnone : (s.map.buf.take s.map.treeCnt).findIdx? (holdsMore order) = none := by
    rw [List.findIdx?_eq_none_iff]
    intro x hx
    obtain ⟨r, hget⟩ := List.mem_iff_getElem?.mp hx
    have hr : r < s.map.treeCnt := by
      have := (List.getElem?_eq_some_iff.mp hget).1
      rw [List.length_take] at this
      omega
    rw [root_getElem? hs hr, Option.some_inj] at hget
    rw [← hget, Bool.eq_false_iff, Ne, holdsMore_iff]
    exact h r hr
  unfold reserve
  rw [Code.get_bind, Code.bind_ok (Code.assert_of (decide_eq_true ho) _ s)]
  refine Code.zoom_ok (t := s.map) ?_
  rw [Code.bind_ok (slice_zero_run hs.map), hnone]
  rfl

/-- The root `r` is the first one that records more than `order`. -/
structure FirstRoot (s : BuddySystem) (order r : ℕ) : Prop where
  lt : r < s.map.treeCnt
  more : Buddy.free order < s.map.val (s.root r)
  first : ∀ q < r, ¬ Buddy.free order < s.map.val (s.root q)

theorem FirstRoot.findIdx? (hs : s.Ok) {r : ℕ} (hr : FirstRoot s order r) :
    (s.map.buf.take s.map.treeCnt).findIdx? (holdsMore order) = some r := by
  obtain ⟨hlen, hval⟩ := List.getElem?_eq_some_iff.mp (root_getElem? hs hr.lt)
  rw [List.findIdx?_eq_some_iff_getElem]
  refine ⟨hlen, ?_, fun q hq => ?_⟩
  · rw [hval, holdsMore_iff]; exact hr.more
  · obtain ⟨_, hval'⟩ := List.getElem?_eq_some_iff.mp (root_getElem? hs (hq.trans hr.lt))
    rw [hval', holdsMore_iff]; exact hr.first q hq

/-- Some root is the first one that records more than `order`, or none records more. -/
theorem firstRoot_or (s : BuddySystem) (order : ℕ) :
    (∀ r < s.map.treeCnt, ¬ Buddy.free order < s.map.val (s.root r)) ∨
      ∃ r, FirstRoot s order r := by
  by_cases hex : ∃ r, r < s.map.treeCnt ∧ Buddy.free order < s.map.val (s.root r)
  · exact .inr ⟨Nat.find hex, (Nat.find_spec hex).1, (Nat.find_spec hex).2, fun q hq hlt =>
      Nat.find_min hex hq ⟨hq.trans (Nat.find_spec hex).1, hlt⟩⟩
  · exact .inl fun r hr hlt => hex ⟨r, hr, hlt⟩

/-- The search below a root: the fuel covers one whole tree. -/
theorem search_root_run (hs : s.Ok) (hb : Bounded s.map) {r : ℕ} (hr : r < s.map.treeCnt) :
    (search order (2 ^ s.map.treeDepth) (some (s.map.cursorAt ⟨s.map.maxDepth, r⟩)) []).run s.map
      = .ok ((find s.map.val order s.map.maxDepth r).map fun i => s.map.cursorAt ⟨order, i⟩)
        s.map := by
  obtain ⟨c, hc, hsearch⟩ := search_run order hs.map (hs.order ▸ hs.small) hb
    s.map.maxDepth r [] (root_in.mpr hr) (by simp)
  rw [maxDepth_succ hs.map] at hc
  have hfuel : 2 ^ s.map.treeDepth = 2 ^ s.map.treeDepth - c - 1 + 1 + c := by omega
  rw [hfuel, hsearch]
  cases find s.map.val order s.map.maxDepth r with
  | some i => rfl
  | none => rfl

/-- The end of `reserve`: the block the search came back with is taken. -/
def takeFound (order : ℕ) : Option Cursor → Code (ArrayForest Buddy) (Option ℕ)
  | none => throw (.unreachable
      "A fit block should be found under root with the appropriate order.")
  | some cursor => do
      let idx ← cursor.idx
      let cursor ← ArrayForest.cursorMut cursor.depth idx
      cursor.set Buddy.reserved
      fixupMap cursor
      return some (idx <<< order)

/-- `reserve` up to the result of the search. -/
theorem reserve_of_search (hs : s.Ok) (hb : Bounded s.map) (ho : order ≤ s.maxOrder) {r : ℕ}
    (hr : FirstRoot s order r) :
    (reserve order).run s = (onMap (takeFound order ((find s.map.val order s.map.maxDepth r).map
      fun i => s.map.cursorAt ⟨order, i⟩))).run s := by
  have hcur := cursor_run hs.map (root_in.mpr hr.lt)
  simp only [Nat.sub_self] at hcur
  unfold reserve
  rw [Code.get_bind, Code.bind_ok (Code.assert_of (decide_eq_true ho) _ s)]
  refine Code.zoom_congr ?_
  rw [Code.bind_ok (slice_zero_run hs.map), hr.findIdx? hs]
  refine (Code.bind_ok hcur).trans ?_
  rw [Code.get_bind]
  refine (Code.bind_ok (search_root_run hs hb hr.lt)).trans ?_
  cases find s.map.val order s.map.maxDepth r with
  | none => rfl
  | some i => rfl

theorem reserve_some (hs : s.Ok) (hb : Bounded s.map) (ho : order ≤ s.maxOrder) {r i : ℕ}
    (hr : FirstRoot s order r) (hi : find s.map.val order s.map.maxDepth r = some i)
    (hn : s.map.In ⟨order, i⟩) :
    ∃ g, (reserve order).run s = .ok (some (i <<< order)) { s with map := g } ∧ s.map.Same g ∧
      g.val = fixup (Function.update s.map.val ⟨order, i⟩ Buddy.reserved)
        (s.map.maxDepth - order) ⟨order, i⟩ := by
  obtain ⟨g, hg, hsame, hval⟩ := fixupMap_run (hs.map.write _ Buddy.reserved)
    ((write_in _ _ _).mpr hn)
  refine ⟨g, ?_, (same_write hs.map hn _).trans hs.map hsame, ?_⟩
  · rw [reserve_of_search hs hb ho hr, hi]
    refine Code.zoom_ok ?_
    rw [Option.map_some, takeFound, Code.bind_ok (idx_cursorAt hs.map _)]
    refine (Code.bind_ok (cursorMut_run hs.map hn)).trans ?_
    rw [Code.bind_ok (set_cursorAt hs.map hn _)]
    exact Code.bind_ok hg
  · rw [hval, val_write hs.map hn]; rfl

/-- The root promised a block, and the search comes back without one. -/
theorem reserve_lost (hs : s.Ok) (hb : Bounded s.map) (ho : order ≤ s.maxOrder) {r : ℕ}
    (hr : FirstRoot s order r) (hi : find s.map.val order s.map.maxDepth r = none) :
    (reserve order).run s = .error (.unreachable
      "A fit block should be found under root with the appropriate order.") s := by
  rw [reserve_of_search hs hb ho hr, hi]
  rfl

theorem reserve_order_le {r : Option ℕ} {t : BuddySystem}
    (h : (reserve order).run s = .ok r t) : order ≤ s.maxOrder := by
  unfold reserve at h
  rw [Code.get_bind] at h
  obtain ⟨_, _, ha, -⟩ := Code.bind_eq_ok.mp h
  exact of_decide_eq_true (Code.assert_eq_ok.mp ha).1

/-! ## `new` -/

/-- The shift of `tree_cnt` left the machine word: a forest without a buffer.
Nothing but panics comes out of it. -/
structure Hollow (s : BuddySystem) : Prop where
  buf : s.map.buf = []
  cnt : 2 ^ 45 = s.map.treeCnt
  depth : s.map.treeDepth = buddyMaxOrder + 1

theorem Hollow.val (hs : s.Hollow) (n : Node) : s.map.val n = Buddy.reserved := by
  rw [ArrayForest.val, ArrayForest.look, hs.buf]
  split <;> rfl

/-- No level of a hollow forest ends where its buffer does. -/
theorem Hollow.end_ne (hs : s.Hollow) (depth : ℕ) :
    s.map.offsetStart (depth + 1) ≠ s.map.treeCnt := by
  rw [offsetStart, ← hs.cnt, Usize.shl, Nat.shiftLeft_eq, ← Nat.pow_add, Usize.modulus]
  by_cases h : depth < 18
  · rw [Nat.mod_eq_of_lt (Nat.pow_lt_pow_right (by decide) (show _ < Usize.bits by
      simp only [Usize.bits]; omega))]
    intro he
    have := Nat.pow_right_injective (le_refl 2) he
    omega
  · have hd : 2 ^ Usize.bits ∣ 2 ^ (45 + (depth + 1)) :=
      Nat.pow_dvd_pow 2 (by simp only [Usize.bits]; omega)
    rw [Nat.mod_eq_zero_of_dvd hd]
    decide

theorem Hollow.not_sliceFill (hs : s.Hollow) {depth a b : ℕ} {x : Buddy} {u : Unit}
    {g : ArrayForest Buddy} : (sliceFill depth a b x).run s.map ≠ .ok u g := by
  intro h
  unfold sliceFill at h
  rw [Code.get_bind] at h
  obtain ⟨start, _, h1, h⟩ := Code.bind_eq_ok.mp h
  obtain ⟨stop, _, h2, h⟩ := Code.bind_eq_ok.mp h
  obtain ⟨-, -, rfl⟩ := Usize.sub_eq_ok.mp h1
  obtain ⟨hle, rfl, rfl⟩ := Usize.sub_eq_ok.mp h2
  have hne := hs.end_ne depth
  have hout : ¬ (s.map.offsetStart (depth + 1) - s.map.treeCnt ≤ s.map.buf.length ∧ a ≤ b ∧
      b ≤ s.map.offsetStart (depth + 1) - s.map.treeCnt - start) := by
    rw [hs.buf, List.length_nil]
    omega
  rw [if_neg hout] at h
  exact nomatch h

theorem Hollow.not_freeForced (hs : s.Hollow) {idx order : ℕ} {u : Unit} {t : BuddySystem} :
    (freeForced idx order).run s ≠ .ok u t := by
  intro h
  unfold freeForced at h
  rw [Code.get_bind] at h
  obtain ⟨_, s', ha, hmap⟩ := Code.bind_eq_ok.mp h
  rw [← (Code.assert_eq_ok.mp ha).2] at hmap
  obtain ⟨g, hg, -⟩ := Code.zoom_eq_ok.mp hmap
  rw [Code.get_bind] at hg
  obtain ⟨target, _, hsub, hg⟩ := Code.bind_eq_ok.mp hg
  obtain ⟨hle, rfl, rfl⟩ := Usize.sub_eq_ok.mp hsub
  obtain ⟨_, _, hloop, -⟩ := Code.bind_eq_ok.mp hg
  have hlen : s.map.maxDepth + 1 - (s.map.maxDepth - order) = order + 1 := by omega
  rw [hlen, List.range'_succ] at hloop
  obtain ⟨_, _, hfill, -⟩ := Code.bind_eq_ok.mp hloop
  exact hs.not_sliceFill hfill

/-- The roots of a hollow forest cannot be read. -/
theorem Hollow.not_slice (hs : s.Hollow) {roots : List Buddy} {f : ArrayForest Buddy} :
    (slice 0).run s.map ≠ .ok roots f := by
  intro h
  unfold slice at h
  rw [Code.get_bind] at h
  obtain ⟨start, _, h1, h⟩ := Code.bind_eq_ok.mp h
  obtain ⟨stop, _, h2, h⟩ := Code.bind_eq_ok.mp h
  obtain ⟨-, -, rfl⟩ := Usize.sub_eq_ok.mp h1
  obtain ⟨hle, rfl, rfl⟩ := Usize.sub_eq_ok.mp h2
  have hne := hs.end_ne 0
  have hout : ¬ s.map.offsetStart (0 + 1) - s.map.treeCnt ≤ s.map.buf.length := by
    rw [hs.buf, List.length_nil]
    omega
  rw [if_neg hout] at h
  exact nomatch h

theorem Hollow.not_reserve (hs : s.Hollow) {order : ℕ} {r : Option ℕ} {t : BuddySystem} :
    (reserve order).run s ≠ .ok r t := by
  intro h
  unfold reserve at h
  rw [Code.get_bind] at h
  obtain ⟨_, s', ha, hmap⟩ := Code.bind_eq_ok.mp h
  rw [← (Code.assert_eq_ok.mp ha).2] at hmap
  obtain ⟨g, hg, -⟩ := Code.zoom_eq_ok.mp hmap
  obtain ⟨_, _, hslice, -⟩ := Code.bind_eq_ok.mp hg
  exact hs.not_slice hslice

/-- With trees smaller than they could be, there is one tree at most. -/
theorem pageCnt_le_of_ne {pageCnt maxOrder : ℕ}
    (hm : maxOrder = min (Usize.ceilLog2 pageCnt) buddyMaxOrder) (hne : maxOrder ≠ buddyMaxOrder) :
    pageCnt ≤ 2 ^ maxOrder ∧ 2 ^ maxOrder ≤ 2 ^ 18 := by
  have hlog : maxOrder = Usize.ceilLog2 pageCnt := by omega
  refine ⟨?_, Nat.pow_le_pow_right (by decide) (hm ▸ min_le_right _ _)⟩
  rw [hlog, ← Usize.powerOfTwoAbove_eq]
  exact Usize.le_powerOfTwoAbove pageCnt

/-- The number of trees wraps only for the largest page counts, and then to nothing. -/
theorem treeCnt_of_wrap {pageCnt maxOrder treeCnt : ℕ} (hp : pageCnt ≤ 2 ^ 63)
    (hm : maxOrder = min (Usize.ceilLog2 pageCnt) buddyMaxOrder)
    (hc : treeCnt * 2 ^ maxOrder < pageCnt + 2 ^ maxOrder)
    (hwrap : ¬ treeCnt * 2 ^ (maxOrder + 1) < Usize.modulus) :
    2 ^ 63 - 2 ^ 18 < pageCnt ∧ maxOrder = buddyMaxOrder ∧ treeCnt = 2 ^ 45 := by
  have hord : maxOrder = buddyMaxOrder := by
    by_contra hne
    obtain ⟨hle, hpow⟩ := pageCnt_le_of_ne hm hne
    rw [Nat.pow_succ, ← Nat.mul_assoc, Usize.modulus, Usize.bits] at hwrap
    omega
  rw [hord, buddyMaxOrder] at hc hwrap
  rw [Usize.modulus, Usize.bits] at hwrap
  exact ⟨by omega, hord, by omega⟩

/-- A number of trees that does not wrap. -/
theorem pageCnt_le_of_fits {pageCnt maxOrder treeCnt : ℕ}
    (hm : maxOrder = min (Usize.ceilLog2 pageCnt) buddyMaxOrder)
    (hc : pageCnt ≤ treeCnt * 2 ^ maxOrder)
    (hfits : treeCnt * 2 ^ (maxOrder + 1) < Usize.modulus) : pageCnt ≤ 2 ^ 63 - 2 ^ 18 := by
  by_cases hord : maxOrder = buddyMaxOrder
  · rw [hord, buddyMaxOrder] at hc hfits
    rw [Usize.modulus, Usize.bits] at hfits
    omega
  · obtain ⟨hle, hpow⟩ := pageCnt_le_of_ne hm hord
    omega

theorem new_run {σ : Type} {pageCnt : ℕ} {alloc : Layout → Code σ (Option ℕ)} {m m' : σ}
    (h : (new pageCnt alloc).run m = .ok (some s) m') :
    s.maxOrder = min (Usize.ceilLog2 pageCnt) buddyMaxOrder ∧
      ((2 ^ 63 - 2 ^ 18 < pageCnt ∧ s.Hollow) ∨
        pageCnt ≤ 2 ^ 63 - 2 ^ 18 ∧ s.Ok ∧ pageCnt ≤ s.map.width 0 ∧
          ∀ n, s.map.val n = Buddy.reserved) := by
  have hp : pageCnt ≤ 2 ^ 63 := by
    by_contra hgt
    unfold new at h
    rw [Code.bind_error (Usize.nextPowerOfTwo_of_gt (not_le.mp hgt) m)] at h
    exact nomatch h
  unfold new at h
  rw [Code.bind_ok (Usize.nextPowerOfTwo_of_le hp m)] at h
  simp only [Usize.log2_powerOfTwoAbove, Nat.one_shiftLeft] at h
  obtain ⟨o, m₁, hnew, hret⟩ := Code.bind_eq_ok.mp h
  cases o with
  | none => exact nomatch hret
  | some f =>
      cases hret
      refine ⟨rfl, ?_⟩
      have hlen := ArrayForest.length_of_new (by decide) hnew
      obtain ⟨l, ptr, -, rfl⟩ := ArrayForest.new_eq hnew
      generalize hmax : min (Usize.ceilLog2 pageCnt) buddyMaxOrder = maxOrder at *
      have hpos := Nat.two_pow_pos maxOrder
      by_cases hwrap : Usize.divCeil pageCnt (2 ^ maxOrder) * 2 ^ (maxOrder + 1) < Usize.modulus
      · right
        have hroom := Usize.le_divCeil_mul (a := pageCnt) hpos
        refine ⟨pageCnt_le_of_fits hmax.symm hroom hwrap,
          ⟨⟨Nat.succ_pos _, hlen.trans (Usize.shl_of_lt hwrap), hwrap⟩, rfl,
            hmax ▸ min_le_right _ _⟩, hroom, fun n => ?_⟩
        simp only [ArrayForest.val, ArrayForest.look]
        split
        · rw [List.getElem?_replicate]
          split <;> rfl
        · rfl
      · left
        obtain ⟨hbig, hord, hcnt⟩ :=
          treeCnt_of_wrap hp hmax.symm (Usize.divCeil_mul_lt hpos) hwrap
        refine ⟨hbig, ?_, hcnt.symm, congrArg (· + 1) hord⟩
        have hzero : Usize.shl (Usize.divCeil pageCnt (2 ^ maxOrder)) (maxOrder + 1) = 0 := by
          rw [hcnt, hord]
          rfl
        exact List.eq_nil_of_length_eq_zero (hlen.trans hzero)

end BuddySystem

end Koe
