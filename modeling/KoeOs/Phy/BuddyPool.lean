/-
# `KoeOs.Phy.BuddyPool` — the buddy system refines a pool

`Models s P` says that the forest of `s` holds the values of the pool `P`.  Each
operation of the buddy system then is the pool operation of the same purpose:

    freeForced    Pool.add     on an aligned block that touches nothing whole
    free          Pool.give    on a live block
    reserve       Pool.take    on the lowest free block of the order under the
                               first root that records more than the order

so what holds of pools (live blocks are disjoint, a block once split stays
split) holds of the buddy system.
-/
import KoeOs.Phy.BuddySpec

namespace Koe

open Node MaxTree

/-- A block of `2 ^ order` pages from page `idx` on. -/
structure Block where
  idx : ℕ
  order : ℕ
  deriving DecidableEq, Repr

namespace Block

/-- The node the buddy system keeps a block at. -/
def node (b : Block) : Node := ⟨b.order, b.idx >>> b.order⟩

/-- Page `i` lies in the block. -/
def Covers (b : Block) (i : ℕ) : Prop := b.idx ≤ i ∧ i < b.idx + 2 ^ b.order

/-- No page lies in both. -/
def Disjoint (b c : Block) : Prop := ∀ i, b.Covers i → ¬ c.Covers i

/-- The block starts at a multiple of its size. -/
def Aligned (b : Block) : Prop := 2 ^ b.order ∣ b.idx

instance (b : Block) (i : ℕ) : Decidable (b.Covers i) := inferInstanceAs (Decidable (_ ∧ _))

instance (b : Block) : Decidable b.Aligned := inferInstanceAs (Decidable (_ ∣ _))

variable {b c : Block}

theorem covers_idx (b : Block) : b.Covers b.idx :=
  ⟨Nat.le_refl _, Nat.lt_add_of_pos_right (Nat.two_pow_pos _)⟩

@[simp] theorem node_order (b : Block) : b.node.order = b.order := rfl

theorem Aligned.idx_eq (h : b.Aligned) : b.node.idx * 2 ^ b.order = b.idx := by
  rw [node, Nat.shiftRight_eq_div_pow, Nat.div_mul_cancel h]

/-- The pages of an aligned block are the leaves below its node. -/
theorem Aligned.covers_iff (h : b.Aligned) {i : ℕ} : b.Covers i ↔ leaf i ≤ b.node := by
  rw [leaf_le_iff_mem, node_order, h.idx_eq]
  rfl

theorem Aligned.node_injective (hb : b.Aligned) (hc : c.Aligned) (h : b.node = c.node) : b = c := by
  have ho : b.order = c.order := congrArg Node.order h
  have hi : b.idx = c.idx := by rw [← hb.idx_eq, ← hc.idx_eq, h, ho]
  cases b; cases c; simp_all

theorem Disjoint.not_le (h : b.Disjoint c) (hb : b.Aligned) (hc : c.Aligned) : ¬ b.node ≤ c.node :=
  not_le_of_disjoint fun i hi hi' => h i (hb.covers_iff.mpr hi) (hc.covers_iff.mpr hi')

theorem Disjoint.symm (h : b.Disjoint c) : c.Disjoint b := fun i hc hb => h i hb hc

/-- The block `reserve` reports for a node. -/
theorem aligned_shiftLeft (i order : ℕ) : Aligned ⟨i <<< order, order⟩ := by
  rw [Aligned, Nat.shiftLeft_eq]
  exact Nat.dvd_mul_left _ _

@[simp] theorem node_shiftLeft (i order : ℕ) : node ⟨i <<< order, order⟩ = ⟨order, i⟩ := by
  simp [node, Nat.shiftLeft_eq, Nat.shiftRight_eq_div_pow]

end Block

namespace BuddySystem

open ArrayForest

variable {s : BuddySystem} {P : Pool} {order : ℕ}

/-- The forest of `s` holds the values of the pool `P`. -/
structure Models (s : BuddySystem) (P : Pool) : Prop where
  ok : s.Ok
  val : ∀ n, n.order ≤ s.map.maxDepth → s.map.val n = P.value Buddy.free n
  whole : ∀ n ∈ P.whole, s.map.In n

namespace Models

theorem bounded (h : Models s P) : Bounded s.map := fun n hn => by
  rw [h.val n hn.1]; exact Pool.value_le Buddy.strictMono_free P n

theorem live_in (h : Models s P) {n : Node} (hn : n ∈ P.live) : s.map.In n :=
  h.whole n (P.live_whole n hn)

/-- A value free at its own level, read as a fact about the pool. -/
theorem val_eq_free_iff (h : Models s P) {n : Node} (hn : n.order ≤ s.map.maxDepth) :
    s.map.val n = Buddy.free n.order ↔ n ∈ P.whole ∧ n ∉ P.live := by
  rw [h.val n hn]
  exact Pool.value_eq_full_iff Buddy.strictMono_free Buddy.bot_lt_free

/-- Two forests for one pool are one forest. -/
theorem map_eq {t : BuddySystem} (hs : Models s P) (ht : Models t P) (h : s.map.Same t.map) :
    t.map = s.map :=
  h.eq_of_val hs.ok.map fun n hn => by
    rw [ht.val n (h.maxDepth ▸ hn.1), hs.val n hn.1]

/-- A pool counts by its blocks. -/
theorem congr {Q : Pool} (h : Models s P) (hw : ∀ n, n ∈ P.whole ↔ n ∈ Q.whole)
    (hl : ∀ n, n ∈ P.live ↔ n ∈ Q.live) : Models s Q where
  ok := h.ok
  val n hn := by rw [h.val n hn]; exact Pool.value_congr n fun m _ => ⟨hw m, hl m⟩
  whole n hn := h.whole n ((hw n).mpr hn)

/-- Nothing is free in a new forest. -/
theorem of_reserved (hs : s.Ok) (h : ∀ n, s.map.val n = Buddy.reserved) : Models s Pool.empty where
  ok := hs
  val n _ := (h n).trans (Pool.value_empty n).symm
  whole _ hn := absurd hn Pool.mem_empty_whole

/-- A write and a fix up that give the values of `Q` give a system for `Q`. -/
theorem of_fixup (h : Models s P) {g : ArrayForest Buddy} {Q : Pool} {n : Node}
    {v w : Node → Buddy} (hn : n.order ≤ s.map.maxDepth) (hg : s.map.Same g)
    (hval : g.val = fixup v (s.map.maxDepth - n.order) n)
    (hvw : ∀ a, a.order ≤ s.map.maxDepth → v a = w a)
    (hw : ∀ a, a.order ≤ n.order + (s.map.maxDepth - n.order) →
      fixup w (s.map.maxDepth - n.order) n a = Q.value Buddy.free a)
    (hQ : ∀ a ∈ Q.whole, s.map.In a) : Models { s with map := g } Q where
  ok := h.ok.of_same hg
  val a ha := by
    have hlev : n.order + (s.map.maxDepth - n.order) = s.map.maxDepth := by omega
    have ha' : a.order ≤ n.order + (s.map.maxDepth - n.order) := by
      rw [hlev, ← hg.maxDepth]; exact ha
    rw [← hw a ha']
    simp only [hval]
    exact fixup_congr _ (fun b hb => hvw b (hlev ▸ hb)) a ha'
  whole a ha := (hg.in_iff a).mpr (hQ a ha)

/-! ## `free` and `free_forced` -/

theorem update_val (h : Models s P) (n : Node) (x : Buddy) (a : Node)
    (ha : a.order ≤ s.map.maxDepth) :
    Function.update s.map.val n x a = Function.update (P.value Buddy.free) n x a := by
  by_cases he : a = n
  · rw [he, Function.update_self, Function.update_self]
  · rw [Function.update_of_ne he, Function.update_of_ne he, h.val a ha]

theorem free_run (h : Models s P) {b : Block} (hb : b.node ∈ P.live) :
    ∃ g, (free b.idx b.order).run s = .ok () { s with map := g } ∧ s.map.Same g ∧
      Models { s with map := g } (P.give b.node) := by
  have hin := h.live_in hb
  have hres : s.map.val b.node = Buddy.reserved := by
    rw [h.val _ hin.1]; exact Pool.value_of_live hb
  obtain ⟨g, hrun, hsame, hval⟩ := BuddySystem.free_run h.ok hin hres
  exact ⟨g, hrun, hsame, h.of_fixup hin.1 hsame hval (h.update_val b.node _)
    (Pool.fixup_give hb) h.whole⟩

/-- On an aligned block the levels `free_forced` fills are the nodes below its own. -/
theorem fillBlock_aligned {b : Block} (hb : b.Aligned) (v : Node → Buddy) (a : Node) :
    fillBlock v b.idx b.order a = if a ≤ b.node then Buddy.free a.order else v a := by
  have hiff : a ≤ b.node ↔ a.order ≤ b.order ∧ b.idx >>> a.order ≤ a.idx ∧
      a.idx < (b.idx >>> a.order) + 2 ^ (b.order - a.order) := by
    rw [le_def, Block.node_order]
    refine and_congr_right fun ho => ?_
    obtain ⟨q, hq⟩ := hb
    have hpow : 2 ^ b.order = 2 ^ (b.order - a.order) * 2 ^ a.order := by
      rw [← Nat.pow_add]; congr 1; omega
    have hidx : b.idx >>> a.order = q * 2 ^ (b.order - a.order) := by
      rw [Nat.shiftRight_eq_div_pow, hq, hpow, Nat.mul_comm, ← Nat.mul_assoc,
        Nat.mul_div_cancel _ (Nat.two_pow_pos _)]
    have hnode : b.node.idx = q := by
      rw [Block.node, Nat.shiftRight_eq_div_pow, hq, Nat.mul_div_cancel_left _ (Nat.two_pow_pos _)]
    rw [hidx, hnode, Nat.div_eq_iff (Nat.two_pow_pos _)]
    have := Nat.two_pow_pos (b.order - a.order)
    omega
  unfold fillBlock
  simp only [← hiff]

theorem freeForced_run (h : Models s P) {b : Block} (hb : b.Aligned) (ho : b.order ≤ s.maxOrder)
    (hw : b.idx + 2 ^ b.order ≤ s.map.width 0)
    (hfresh : ∀ m ∈ P.whole, ¬ m ≤ b.node ∧ ¬ b.node ≤ m) :
    ∃ g, (freeForced b.idx b.order).run s = .ok () { s with map := g } ∧ s.map.Same g ∧
      Models { s with map := g } (P.add b.node hfresh) := by
  obtain ⟨g, hrun, hsame, hval⟩ := BuddySystem.freeForced_run h.ok ho hw
  have hod : b.order ≤ s.map.maxDepth := h.ok.order ▸ ho
  have hin : s.map.In b.node := by
    have := fill_le_width (k := b.order) le_rfl hod hw
    rw [Nat.sub_self, Nat.pow_zero] at this
    exact ⟨hod, this⟩
  refine ⟨g, hrun, hsame, h.of_fixup hod hsame hval (fun a ha => ?_) Pool.fixup_add fun a ha => ?_⟩
  · rw [fillBlock_aligned hb, h.val a ha]
  · rcases Pool.mem_add_whole.mp ha with hw | hle
    · exact h.whole a hw
    · exact hin.mono hle

/-! ## `reserve` -/

/-- Below the left child every index is smaller than below the right one. -/
theorem idx_lt_of_le_left {k j : ℕ} {a b : Node} (ha : a ≤ ⟨k, 2 * j⟩) (hb : b ≤ ⟨k, 2 * j + 1⟩)
    (ho : a.order = b.order) : a.idx < b.idx := by
  by_contra hge
  have h := Nat.div_le_div_right (c := 2 ^ (k - b.order)) (not_lt.mp hge)
  have h1 : a.idx / 2 ^ (k - a.order) = 2 * j := ha.2
  have h2 : b.idx / 2 ^ (k - b.order) = 2 * j + 1 := hb.2
  rw [← ho] at h h2
  omega

/-- The lowest free block of order `o` at or below `r`. -/
structure Lowest (P : Pool) (o : ℕ) (r n : Node) : Prop where
  le : n ≤ r
  order : n.order = o
  free : P.Free n
  first : ∀ m ≤ r, m.order = o → P.Free m → n.idx ≤ m.idx

/-- What a search for a block of order `o` below `r` is to find. -/
def Finds (P : Pool) (o : ℕ) (r : Node) : Option ℕ → Prop
  | some i => Lowest P o r ⟨o, i⟩
  | none => ∀ m ≤ r, m.order = o → ¬ P.Free m

/-- The left tree goes first, and its blocks come first. -/
theorem Finds.or {o k j : ℕ} {x y : Option ℕ} (hx : Finds P o ⟨k, 2 * j⟩ x)
    (hy : Finds P o ⟨k, 2 * j + 1⟩ y) (hsub : ∀ m ≤ (⟨k + 1, j⟩ : Node), m.order = o → P.Free m →
      m ≤ ⟨k, 2 * j⟩ ∨ m ≤ ⟨k, 2 * j + 1⟩) : Finds P o ⟨k + 1, j⟩ (x.or y) := by
  have hleft : (⟨k, 2 * j⟩ : Node) ≤ ⟨k + 1, j⟩ :=
    (left_lt (n := ⟨k + 1, j⟩) (Nat.succ_pos k)).le
  have hright : (⟨k, 2 * j + 1⟩ : Node) ≤ ⟨k + 1, j⟩ :=
    (right_lt (n := ⟨k + 1, j⟩) (Nat.succ_pos k)).le
  cases x with
  | some i =>
      refine ⟨hx.le.trans hleft, rfl, hx.free, fun m hm ho hfree => ?_⟩
      rcases hsub m hm ho hfree with hm | hm
      · exact hx.first m hm ho hfree
      · exact (idx_lt_of_le_left hx.le hm ho.symm).le
  | none =>
      rw [Option.none_or]
      cases y with
      | some i =>
          refine ⟨hy.le.trans hright, rfl, hy.free, fun m hm ho hfree => ?_⟩
          rcases hsub m hm ho hfree with hm | hm
          · exact absurd hfree (hx m hm ho)
          · exact hy.first m hm ho hfree
      | none =>
          intro m hm ho hfree
          rcases hsub m hm ho hfree with hm | hm
          · exact hx m hm ho hfree
          · exact hy m hm ho hfree

/-- Where less than `free o` is recorded, nothing of order `o` is free. -/
theorem finds_none (h : Models s P) {o : ℕ} {n : Node} (hn : n.order ≤ s.map.maxDepth)
    (hout : ∀ l ∈ P.live, ¬ n < l) (hlt : s.map.val n < Buddy.free o) : Finds P o n none := by
  intro m hm ho hfree
  rw [h.val n hn] at hlt
  exact absurd ((Pool.full_le_value_iff Buddy.strictMono_free Buddy.bot_lt_free n hout).mpr
    ⟨m, hm, ho, hfree⟩) (not_le.mpr hlt)

/-- A node free at its own order is the block. -/
theorem finds_self (h : Models s P) {k j : ℕ} (hk : k ≤ s.map.maxDepth)
    (hout : ∀ l ∈ P.live, ¬ (⟨k, j⟩ : Node) < l) (hv : s.map.val ⟨k, j⟩ = Buddy.free k) :
    Finds P k ⟨k, j⟩ (some j) := by
  obtain ⟨hw, hl⟩ := (h.val_eq_free_iff (n := ⟨k, j⟩) hk).mp hv
  refine ⟨le_rfl, rfl, Pool.free_of_whole hw hl hout, fun m hm ho _ => ?_⟩
  rw [eq_of_le_of_order_le hm ho.ge]

/-- `find` walks to the lowest free block. -/
theorem find_spec (h : Models s P) (o : ℕ) (k : ℕ) : ∀ j, k ≤ s.map.maxDepth →
    (∀ l ∈ P.live, ¬ (⟨k, j⟩ : Node) < l) → Finds P o ⟨k, j⟩ (find s.map.val o k j) := by
  induction k with
  | zero =>
      intro j hk hout
      rw [find]
      by_cases hp : s.map.val ⟨0, j⟩ < Buddy.free o
      · rw [if_pos hp]
        exact h.finds_none hk hout hp
      · have hle : s.map.val ⟨0, j⟩ ≤ Buddy.free 0 := by
          rw [h.val ⟨0, j⟩ hk]; exact Pool.value_le Buddy.strictMono_free P _
        obtain rfl : o = 0 := Nat.le_zero.mp
          (Buddy.strictMono_free.le_iff_le.mp ((not_lt.mp hp).trans hle))
        have hv : s.map.val ⟨0, j⟩ = Buddy.free 0 := le_antisymm hle (not_lt.mp hp)
        rw [if_neg hp, if_pos ⟨hv, rfl⟩]
        exact h.finds_self hk hout hv
  | succ k ih =>
      intro j hk hout
      rw [find]
      by_cases hp : s.map.val ⟨k + 1, j⟩ < Buddy.free o
      · rw [if_pos hp]
        exact h.finds_none hk hout hp
      · by_cases hit : s.map.val ⟨k + 1, j⟩ = Buddy.free o ∧ o = k + 1
        · obtain ⟨hv, rfl⟩ := hit
          rw [if_neg hp, if_pos ⟨hv, rfl⟩]
          exact h.finds_self hk hout hv
        · rw [if_neg hp, if_neg hit]
          have hn : (⟨k + 1, j⟩ : Node) ∉ P.live := fun hl => hp <| by
            rw [h.val _ hk, Pool.value_of_live hl]; exact Nat.succ_pos o
          have hl := left_parent (n := ⟨k + 1, j⟩) (Nat.succ_pos k)
          have hr := right_parent (n := ⟨k + 1, j⟩) (Nat.succ_pos k)
          refine (ih (2 * j) (by omega) (Pool.not_lt_of_parent hl hn hout)).or
            (ih (2 * j + 1) (by omega) (Pool.not_lt_of_parent hr hn hout)) fun m hm ho hfree => ?_
          -- the node itself would have been a hit
          refine (lt_iff_le_child (Nat.succ_pos k)).mp (lt_of_le_of_ne hm fun he => hit ?_)
          subst he
          refine ⟨?_, ho.symm⟩
          rw [← ho]
          exact (h.val_eq_free_iff hk).mpr ⟨hfree.1, hn⟩

/-- A root lies inside no live block. -/
theorem root_not_lt (h : Models s P) (r : ℕ) : ∀ l ∈ P.live, ¬ s.root r < l := fun l hl hlt => by
  have := order_lt_of_lt hlt
  have := (h.live_in hl).1
  simp only [root] at *
  omega

/-- What a root records: the orders that are free below it. -/
theorem free_le_root_iff (h : Models s P) {o r : ℕ} :
    Buddy.free o ≤ s.map.val (s.root r) ↔ ∃ m ≤ s.root r, m.order = o ∧ P.Free m := by
  rw [h.val (s.root r) le_rfl]
  exact Pool.full_le_value_iff Buddy.strictMono_free Buddy.bot_lt_free _ (h.root_not_lt r)

theorem reserve_some (h : Models s P) (ho : order ≤ s.maxOrder) {r : ℕ}
    (hr : FirstRoot s order r) :
    ∃ n g, ∃ hn : Lowest P order (s.root r) n,
      (reserve order).run s = .ok (some (n.idx <<< order)) { s with map := g } ∧
        s.map.Same g ∧ Models { s with map := g } (P.take n hn.free) := by
  have hfind := h.find_spec order s.map.maxDepth r le_rfl (h.root_not_lt r)
  obtain ⟨m, hm, hmo, hfree⟩ := h.free_le_root_iff.mp hr.more.le
  cases hf : find s.map.val order s.map.maxDepth r with
  | none =>
      rw [hf] at hfind
      exact absurd hfree (hfind m hm hmo)
  | some i =>
      rw [hf] at hfind
      have hin := h.whole _ hfind.free.1
      obtain ⟨g, hrun, hsame, hval⟩ := BuddySystem.reserve_some h.ok h.bounded ho hr hf hin
      exact ⟨⟨order, i⟩, g, hfind, hrun, hsame, h.of_fixup hin.1 hsame hval (h.update_val _ _)
        (Pool.fixup_take Buddy.strictMono_free Buddy.bot_lt_free) fun a ha => h.whole a ha.1⟩

/-- `reserve` returns nothing, or takes the lowest free block under the first root
that records more than the order. -/
theorem reserve_cases (h : Models s P) (ho : order ≤ s.maxOrder) :
    ((∀ r < s.map.treeCnt, ¬ Buddy.free order < s.map.val (s.root r)) ∧
      (reserve order).run s = .ok none s) ∨
    ∃ r n g, ∃ hn : Lowest P order (s.root r) n, FirstRoot s order r ∧
      (reserve order).run s = .ok (some (n.idx <<< order)) { s with map := g } ∧
        s.map.Same g ∧ Models { s with map := g } (P.take n hn.free) := by
  rcases firstRoot_or s order with hnone | ⟨r, hr⟩
  · exact .inl ⟨hnone, reserve_none h.ok ho hnone⟩
  · obtain ⟨n, g, hn, hrun, hsame, hm⟩ := h.reserve_some ho hr
    exact .inr ⟨r, n, g, hn, hr, hrun, hsame, hm⟩

end Models

end BuddySystem

end Koe
