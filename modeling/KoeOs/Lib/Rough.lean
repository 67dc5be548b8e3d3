/-
# `KoeOs.Lib.Rough` — a max tree that was not filled block by block

A `Pool` needs the unsplit blocks to be closed downwards: with a block, everything
inside it is there.  A tree that was filled at indices which are no multiples of the
block size does not have that.  A node may say that it is free as a whole while some
of what is below it was never put in.

What such a tree can still keep is `Rough`.  A node is *kept* if it is free as a whole
or handed out, and

    convex   between two kept nodes, one above the other, every node is kept
    right    the right child of a kept node is free as a whole
    split    any other node records no more than one of its children does

Handing out a free block removes every kept node above it (`Rough.take`).  For this the
walk of `fixup` must not stop too early, and that is what `convex` is for: as long as
there is a kept node further up, the one just below it is kept as well, so its value has
to change.  Taking a block back changes no kept node at all (`Rough.give`).

So kept nodes only ever become fewer, two blocks that are out have no leaf in common
(`Rough.live_disjoint`), and a search that goes down by what the nodes record never comes to
an end without a block (`Rough.descend`).
-/
import KoeOs.Lib.MaxTree

namespace Koe

open Node MaxTree

namespace MaxTree

variable {α : Type*} [LinearOrder α] {v : Node → α} {n a : Node}

/-! ## What the walk leaves -/

/-- The walk writes ancestors only, and only as far up as it goes. -/
theorem fixup_off (m : ℕ) : ∀ {v : Node → α} {n : Node}, ¬ (n < a ∧ a.order ≤ n.order + m) →
    fixup v m n a = v a := by
  induction m with
  | zero => intro v n _; rfl
  | succ m ih =>
      intro v n h
      simp only [fixup]
      split
      · rfl
      · have hne : a ≠ n.parent := by
          rintro rfl
          exact h ⟨lt_parent n, by rw [parent_order]; omega⟩
        have hoff : ¬ (n.parent < a ∧ a.order ≤ n.parent.order + m) := by
          rintro ⟨hlt, hle⟩
          rw [parent_order] at hle
          exact h ⟨(lt_parent n).trans hlt, by omega⟩
        rw [ih hoff, Function.update_of_ne hne]

theorem fixup_of_not_lt (m : ℕ) (h : ¬ n < a) : fixup v m n a = v a :=
  fixup_off m fun hlt => h hlt.1

/-- An ancestor in reach of the walk is the maximum of its children afterwards, or the
walk stopped before it came to them. -/
theorem fixup_settles (m : ℕ) : ∀ {v : Node → α} {n : Node}, n < a → a.order ≤ n.order + m →
    fixup v m n a = max (fixup v m n a.left) (fixup v m n a.right) ∨
      n.parent < a ∧ fixup v m n a = v a ∧ fixup v m n a.left = v a.left ∧
        fixup v m n a.right = v a.right := by
  induction m with
  | zero =>
      intro v n hlt hle
      exact absurd (order_lt_of_lt hlt) (Nat.not_lt.mpr hle)
  | succ m ih =>
      intro v n hlt hle
      have hpar := lt_iff_parent_le.mp hlt
      simp only [fixup]
      split
      · rename_i hstop
        rcases eq_or_lt_of_le hpar with rfl | hup
        · exact .inl (hstop.trans (max_sibling v n))
        · exact .inr ⟨hup, rfl, rfl, rfl⟩
      · rcases eq_or_lt_of_le hpar with rfl | hup
        · -- the parent was just written, from children that stay
          have hpos : 0 < n.parent.order := Nat.succ_pos _
          have hl := left_lt hpos
          have hr := right_lt hpos
          refine .inl ?_
          rw [fixup_of_not_lt m (lt_irrefl _), fixup_of_not_lt m hl.not_gt,
            fixup_of_not_lt m hr.not_gt, Function.update_self, Function.update_of_ne hl.ne,
            Function.update_of_ne hr.ne, max_sibling]
        · have hpos : 0 < a.order := Nat.zero_lt_of_lt (order_lt_of_lt hup)
          rcases ih hup (by rw [parent_order]; omega) with hmax | ⟨hpp, ha, hl, hr⟩
          · exact .inl hmax
          · refine .inr ⟨hup, ha.trans (Function.update_of_ne hup.ne' _ _),
              hl.trans (Function.update_of_ne (fun he => ?_) _ _),
              hr.trans (Function.update_of_ne (fun he => ?_) _ _)⟩
            · exact hpp.ne (by rw [← he, left_parent hpos])
            · exact hpp.ne (by rw [← he, right_parent hpos])

/-- A node that is not full records no more than one of its children. -/
def Settled (full : ℕ → α) (top : ℕ) (v : Node → α) : Prop :=
  ∀ n : Node, 0 < n.order → n.order ≤ top → v n ≠ full n.order → v n ≤ max (v n.left) (v n.right)

/-- Filling nodes and fixing up above one of them leaves a tree settled. -/
theorem Settled.fixup {full : ℕ → α} {top m : ℕ} {u : Node → α} (h : Settled full top v)
    (hv : ∀ a, v a ≤ full a.order) (hu : ∀ a, u a = full a.order ∨ u a = v a)
    (hm : n.order + m = top) : Settled full top (fixup u m n) := by
  have hle : ∀ a, v a ≤ u a := fun a => by
    rcases hu a with he | he
    · exact he ▸ hv a
    · exact he.ge
  have hold : ∀ a, 0 < a.order → a.order ≤ top → u a ≠ full a.order →
      u a ≤ max (u a.left) (u a.right) := fun a hpos htop hne => by
    have he := (hu a).resolve_left hne
    rw [he] at hne ⊢
    exact (h a hpos htop hne).trans (max_le_max (hle _) (hle _))
  intro a hpos htop hne
  by_cases hlt : n < a
  · rcases fixup_settles m hlt (hm ▸ htop) (v := u) with hmax | ⟨-, ha, hl, hr⟩
    · exact hmax.le
    · rw [ha] at hne ⊢
      rw [hl, hr]
      exact hold a hpos htop hne
  · rw [fixup_of_not_lt m hlt] at hne ⊢
    rw [fixup_of_not_lt m fun hl => hlt (hl.trans (left_lt hpos)),
      fixup_of_not_lt m fun hr => hlt (hr.trans (right_lt hpos))]
    exact hold a hpos htop hne

end MaxTree

/-! ## Rough trees -/

section Rough

variable {α : Type*} [LinearOrder α] [OrderBot α]

/-- Free as a whole, or handed out. -/
def Kept (full : ℕ → α) (v : Node → α) (live : Set Node) (n : Node) : Prop :=
  v n = full n.order ∨ n ∈ live

/-- What a buddy allocator keeps whatever indices it was filled at. -/
structure Rough (full : ℕ → α) (top : ℕ) (v : Node → α) (live : Set Node) : Prop where
  le : ∀ n, v n ≤ full n.order
  above : ∀ n, top < n.order → v n = ⊥
  convex : ∀ {a b c}, a ≤ b → b ≤ c → Kept full v live a → Kept full v live c →
    Kept full v live b
  right : ∀ {n}, Kept full v live n → 0 < n.order → v n.right = full n.right.order
  split : ∀ {n}, ¬ Kept full v live n → 0 < n.order → v n ≤ max (v n.left) (v n.right)
  leaf : ∀ {n}, ¬ Kept full v live n → n.order = 0 → v n = ⊥
  live_bot : ∀ n ∈ live, v n = ⊥
  live_le : ∀ n ∈ live, n.order ≤ top
  live_top : ∀ n ∈ live, ∀ m, n < m → ¬ Kept full v live m

namespace Rough

variable {full : ℕ → α} {top : ℕ} {v : Node → α} {live : Set Node} {n m : Node}

/-- A block that can be handed out. -/
def Free (full : ℕ → α) (v : Node → α) (live : Set Node) (n : Node) : Prop :=
  v n = full n.order ∧ ∀ l ∈ live, ¬ n ≤ l

/-- One live block is never inside another. -/
theorem live_antichain (h : Rough full top v live) (hn : n ∈ live) (hm : m ∈ live)
    (hle : n ≤ m) : n = m := by
  by_contra hne
  exact h.live_top n hn m (lt_of_le_of_ne hle hne) (.inr hm)

/-- Two blocks that are out have no leaf in common. -/
theorem live_disjoint (h : Rough full top v live) (hn : n ∈ live) (hm : m ∈ live) (hne : n ≠ m)
    (i : ℕ) : ¬ (Node.leaf i ≤ n ∧ Node.leaf i ≤ m) :=
  disjoint_of_not_le (fun hle => hne (h.live_antichain hn hm hle))
    (fun hle => hne (h.live_antichain hm hn hle).symm) i

section Full

variable (hfull : StrictMono full) (hbot : ⊥ < full 0)
include hfull hbot

theorem full_ne_bot (o : ℕ) : full o ≠ ⊥ :=
  (hbot.trans_le (hfull.monotone (Nat.zero_le o))).ne'

/-- A node that is full lies inside the forest, and is not out. -/
theorem order_le (h : Rough full top v live) (hn : v n = full n.order) : n.order ≤ top := by
  by_contra hlt
  exact full_ne_bot hfull hbot _ (hn.symm.trans (h.above n (not_le.mp hlt)))

theorem not_live (h : Rough full top v live) (hn : v n = full n.order) : n ∉ live := fun hl =>
  full_ne_bot hfull hbot _ (hn.symm.trans (h.live_bot n hl))

/-! ### Reading a tree -/

/-- A node that records an order is not out. -/
theorem not_live_of_le (h : Rough full top v live) {o : ℕ} (ho : full o ≤ v n) : n ∉ live :=
  fun hl => full_ne_bot hfull hbot o (le_bot_iff.mp (h.live_bot n hl ▸ ho))

/-- A leaf that records an order is free. -/
theorem leaf_full (h : Rough full top v live) {o : ℕ} (hzero : n.order = 0) (ho : full o ≤ v n) :
    v n = full o ∧ o = 0 := by
  have hkept : Kept full v live n := by
    by_contra hk
    exact full_ne_bot hfull hbot o (le_bot_iff.mp (h.leaf hk hzero ▸ ho))
  have hv := hkept.resolve_right (h.not_live_of_le hfull hbot ho)
  rw [hzero] at hv
  obtain rfl : o = 0 := Nat.le_zero.mp (hfull.le_iff_le.mp (hv ▸ ho))
  exact ⟨hv, rfl⟩

/-- A node that records the order `o` and is not free at that order itself has a child that
records it. -/
theorem descend (h : Rough full top v live) {o : ℕ} (hpos : 0 < n.order) (ho : full o ≤ v n)
    (hne : ¬ (v n = full o ∧ o = n.order)) : full o ≤ v n.left ∨ full o ≤ v n.right := by
  by_cases hk : Kept full v live n
  · have hv := hk.resolve_right (h.not_live_of_le hfull hbot ho)
    have hle := hfull.le_iff_le.mp (hv ▸ ho)
    have hlt : o ≤ n.right.order := by
      rw [right_order]
      have : o ≠ n.order := fun he => hne ⟨by rw [hv, he], he⟩
      omega
    exact .inr ((hfull.monotone hlt).trans_eq (h.right hk hpos).symm)
  · exact le_max_iff.mp (ho.trans (h.split hk hpos))

/-! ### One write and a walk

Both operations write one value at `n` and fix up, and both leave the kept nodes that do
not lie above `n`. -/

variable {x : α} {live' : Set Node}

omit [OrderBot α] hfull hbot in
theorem update_le (hv : ∀ a, v a ≤ full a.order) (hx : x ≤ full n.order) (a : Node) :
    Function.update v n x a ≤ full a.order := by
  by_cases he : a = n
  · rw [he, Function.update_self]; exact hx
  · rw [Function.update_of_ne he]; exact hv a

omit [OrderBot α] hbot in
theorem fixup_le (hv : ∀ a, v a ≤ full a.order) (m : ℕ) (a : Node) :
    fixup v m n a ≤ full a.order := by
  rcases fixup_cases hfull.monotone m hv a (n := n) with he | ⟨-, hle⟩
  · exact he ▸ hv a
  · exact hle.trans (hfull.monotone (Nat.sub_le _ _))

omit hfull hbot [OrderBot α] in
/-- Neither `n` nor anything above it: nothing is written. -/
theorem fixup_update_off {d : ℕ} {a : Node} (hlt : ¬ n < a) (hne : a ≠ n) :
    fixup (Function.update v n x) d n a = v a := by
  rw [fixup_of_not_lt d hlt, Function.update_of_ne hne]

omit hfull hbot [OrderBot α] in
/-- The children of a node that is neither `n` nor above it. -/
theorem fixup_update_children {d : ℕ} {a : Node} (hlt : ¬ n < a) (hpos : 0 < a.order) :
    fixup (Function.update v n x) d n a.left = v a.left ∧
      fixup (Function.update v n x) d n a.right = v a.right := by
  have hl := left_lt hpos
  have hr := right_lt hpos
  exact ⟨fixup_update_off (fun h => hlt (h.trans hl)) fun he => hlt (he ▸ hl),
    fixup_update_off (fun h => hlt (h.trans hr)) fun he => hlt (he ▸ hr)⟩

omit hbot in
/-- What both have in common. -/
theorem of_fixup (h : Rough full top v live) (hn : Kept full v live n) (htop : n.order ≤ top)
    (hx : x ≤ full n.order) (hout : ∀ l ∈ live, ¬ n < l)
    (hkept : ∀ m, Kept full (fixup (Function.update v n x) (top - n.order) n) live' m ↔
      Kept full v live m ∧ ¬ n < m)
    (hlive : ∀ l ∈ live', l = n ∧ x = ⊥ ∨ l ∈ live ∧ l ≠ n) :
    Rough full top (fixup (Function.update v n x) (top - n.order) n) live' := by
  have hself : Kept full (fixup (Function.update v n x) (top - n.order) n) live' n :=
    (hkept n).mpr ⟨hn, lt_irrefl n⟩
  have habove : ∀ a : Node, top < a.order →
      fixup (Function.update v n x) (top - n.order) n a = ⊥ := by
    intro a ha
    rw [fixup_off _ fun hlt => by omega, Function.update_of_ne fun he => by subst he; omega]
    exact h.above a ha
  refine ⟨fixup_le hfull (update_le h.le hx) _, habove, ?_, ?_, ?_, ?_, ?_, ?_, ?_⟩
  · intro a b c hab hbc ha hc
    rw [hkept] at ha hc ⊢
    exact ⟨h.convex hab hbc ha.1 hc.1, fun hlt => hc.2 (hlt.trans_le hbc)⟩
  · intro m hm hpos
    obtain ⟨hm, hlt⟩ := (hkept m).mp hm
    exact (fixup_update_children hlt hpos).2.trans (h.right hm hpos)
  · intro m hm hpos
    by_cases hlt : n < m
    · by_cases hmt : m.order ≤ top
      · rcases fixup_settles (top - n.order) hlt (by omega) (v := Function.update v n x) with
          hmax | ⟨hup, ha, hl, hr⟩
        · exact hmax.le
        · -- the walk stopped below `m`, which was not kept before either
          have hne : ∀ c : Node, c.parent = m → c ≠ n := fun c hc he => hup.ne (he ▸ hc)
          rw [Function.update_of_ne (hne _ (left_parent hpos))] at hl
          rw [Function.update_of_ne (hne _ (right_parent hpos))] at hr
          rw [Function.update_of_ne hlt.ne'] at ha
          rw [ha, hl, hr]
          refine h.split (fun hk => hm ?_) hpos
          exact .inl (ha.trans (hk.resolve_right fun hl => hout m hl hlt))
      · rw [habove m (not_le.mp hmt)]
        exact bot_le
    · have hne : m ≠ n := fun he => hm (he ▸ hself)
      obtain ⟨hl, hr⟩ := fixup_update_children (v := v) (x := x) (d := top - n.order) hlt hpos
      rw [fixup_update_off hlt hne, hl, hr]
      exact h.split (fun hk => hm ((hkept m).mpr ⟨hk, hlt⟩)) hpos
  · intro m hm hzero
    have hlt : ¬ n < m := fun hlt => by have := order_lt_of_lt hlt; omega
    rw [fixup_update_off hlt fun he => hm (he ▸ hself)]
    exact h.leaf (fun hk => hm ((hkept m).mpr ⟨hk, hlt⟩)) hzero
  · intro l hl
    rcases hlive l hl with ⟨rfl, hxbot⟩ | ⟨hl, hne⟩
    · rw [fixup_of_not_lt _ (lt_irrefl _), Function.update_self, hxbot]
    · rw [fixup_update_off (hout l hl) hne]
      exact h.live_bot l hl
  · intro l hl
    rcases hlive l hl with ⟨rfl, -⟩ | ⟨hl, -⟩
    · exact htop
    · exact h.live_le l hl
  · intro l hl m hlt hm
    obtain ⟨hm, hnm⟩ := (hkept m).mp hm
    rcases hlive l hl with ⟨rfl, -⟩ | ⟨hl, -⟩
    · exact hnm hlt
    · exact h.live_top l hl m hlt hm

/-! ### Handing a block out -/

/-- No node above the block is free as a whole afterwards: the highest one that was has one
below it that was, and so on down to the block itself. -/
theorem take_ne_full (h : Rough full top v live) (hn : Free full v live n) (a : Node)
    (hlt : n < a) : fixup (Function.update v n ⊥) (top - n.order) n a ≠ full a.order := by
  have htop := h.order_le hfull hbot hn.1
  have hle := fixup_le (n := n) hfull (update_le h.le (bot_le (a := full n.order)))
    (top - n.order)
  induction hk : a.order using Nat.strong_induction_on generalizing a with
  | _ k ih =>
    subst hk
    intro hfulla
    have hpos : 0 < a.order := Nat.zero_lt_of_lt (order_lt_of_lt hlt)
    by_cases hmt : a.order ≤ top
    · rcases fixup_settles (top - n.order) hlt (by omega) (v := Function.update v n ⊥) with
        hmax | ⟨hup, ha, hl, hr⟩
      · have hless : full (a.order - 1) < full a.order := hfull (by omega)
        have hm := max_le (hle a.left) (hle a.right)
        rw [left_order, ← hmax, hfulla] at hm
        exact absurd hm (not_le.mpr hless)
      · rw [Function.update_of_ne hlt.ne'] at ha
        -- the child on the way down to the block
        obtain ⟨c, hc, hnc, hwc⟩ : ∃ c : Node, c.parent = a ∧ n ≤ c ∧
            fixup (Function.update v n ⊥) (top - n.order) n c = Function.update v n ⊥ c := by
          rcases (lt_iff_le_child hpos).mp hlt with hle | hle
          · exact ⟨_, left_parent hpos, hle, hl⟩
          · exact ⟨_, right_parent hpos, hle, hr⟩
        have hca : c < a := hc ▸ lt_parent c
        have hnlt := lt_of_le_of_ne hnc fun he => hup.ne (he ▸ hc)
        have hkept := h.convex hnc hca.le (.inl hn.1) (.inl (ha.symm.trans hfulla))
        refine ih c.order (order_lt_of_lt hca) c hnlt rfl ?_
        rw [hwc, Function.update_of_ne hnlt.ne']
        exact hkept.resolve_right fun hl => hn.2 c hl hnc
    · rw [fixup_off _ fun hlt => by omega, Function.update_of_ne hlt.ne',
        h.above a (not_le.mp hmt)] at hfulla
      exact full_ne_bot hfull hbot _ hfulla.symm

theorem kept_take_iff (h : Rough full top v live) (hn : Free full v live n) (m : Node) :
    Kept full (fixup (Function.update v n ⊥) (top - n.order) n) (insert n live) m ↔
      Kept full v live m ∧ ¬ n < m := by
  by_cases hlt : n < m
  · refine iff_of_false ?_ fun hm => hm.2 hlt
    rintro (hm | rfl | hm)
    · exact h.take_ne_full hfull hbot hn m hlt hm
    · exact lt_irrefl _ hlt
    · exact hn.2 m hm hlt.le
  · by_cases he : m = n
    · subst he
      exact iff_of_true (.inr (Set.mem_insert _ _)) ⟨.inl hn.1, hlt⟩
    · rw [and_iff_left hlt, Kept, Kept, fixup_update_off hlt he, Set.mem_insert_iff,
        or_iff_right he]

/-- A free block is handed out. -/
theorem take (h : Rough full top v live) (hn : Free full v live n) :
    Rough full top (fixup (Function.update v n ⊥) (top - n.order) n) (insert n live) := by
  refine h.of_fixup hfull (.inl hn.1) (h.order_le hfull hbot hn.1) bot_le
    (fun l hl hlt => hn.2 l hl hlt.le) (h.kept_take_iff hfull hbot hn) ?_
  rintro l (rfl | hl)
  · exact .inl ⟨rfl, rfl⟩
  · exact .inr ⟨hl, fun he => hn.2 l hl he.ge⟩

/-! ### Taking a block back -/

omit hbot in
theorem kept_give_iff (h : Rough full top v live) (hn : n ∈ live) (m : Node) :
    Kept full (fixup (Function.update v n (full n.order)) (top - n.order) n) (live \ {n}) m ↔
      Kept full v live m ∧ ¬ n < m := by
  by_cases hlt : n < m
  · refine iff_of_false ?_ fun hm => hm.2 hlt
    rintro (hm | hm)
    · -- what the walk writes comes from a child
      rcases fixup_cases hfull.monotone (top - n.order) (update_le h.le le_rfl) m (n := n) with
        he | ⟨-, hle⟩
      · rw [he, Function.update_of_ne hlt.ne'] at hm
        exact h.live_top n hn m hlt (.inl hm)
      · have hless : full (m.order - 1) < full m.order :=
          hfull (by have := order_lt_of_lt hlt; omega)
        exact absurd hm (hle.trans_lt hless).ne
    · exact h.live_top n hn m hlt (.inr hm.1)
  · by_cases he : m = n
    · subst he
      refine iff_of_true (.inl ?_) ⟨.inr hn, hlt⟩
      rw [fixup_of_not_lt _ hlt, Function.update_self]
    · rw [and_iff_left hlt, Kept, Kept, fixup_update_off hlt he, Set.mem_sdiff,
        and_iff_left (show m ∉ ({n} : Set Node) from he)]

omit hbot in
/-- A block that is out comes back. -/
theorem give (h : Rough full top v live) (hn : n ∈ live) :
    Rough full top (fixup (Function.update v n (full n.order)) (top - n.order) n)
      (live \ {n}) := by
  refine h.of_fixup hfull (.inr hn) (h.live_le n hn) le_rfl (fun l hl hlt => ?_)
    (h.kept_give_iff hfull hn) fun l hl => .inr ⟨hl.1, hl.2⟩
  exact h.live_top n hn l hlt (.inr hl)

end Full

end Rough

end Rough

end Koe
