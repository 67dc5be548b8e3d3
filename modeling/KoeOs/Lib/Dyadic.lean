/-
# `KoeOs.Lib.Dyadic` — the forest of dyadic blocks

A node `⟨k, j⟩` is the block of the `2 ^ k` indices from `j * 2 ^ k` on.  Nodes
are ordered by inclusion: `a ≤ b` says that `a` is `b` or lies below it.  Three
facts carry everything that is done with them:

    a ≤ b, a ≤ c    ⟹   b ≤ c or c ≤ b       (`Node.le_total_above`: the order is a forest)
    a < b           ⟺   a.parent ≤ b          (`Node.lt_iff_parent_le`)
    a < ⟨k + 1, j⟩  ⟺   a ≤ ⟨k, 2 * j⟩ or a ≤ ⟨k, 2 * j + 1⟩   (`Node.lt_iff_le_child`)

Two blocks are therefore disjoint or nested, which is all a buddy scheme rests
on.
-/
import Mathlib.Data.Nat.Bitwise
import Mathlib.Order.UpperLower.Principal

namespace Koe

/-- The dyadic block of the `2 ^ order` indices from `idx * 2 ^ order` on. -/
@[ext] structure Node where
  order : ℕ
  idx : ℕ
  deriving DecidableEq, Repr

namespace Node

/-- `a` is `b` or below it. -/
instance : LE Node := ⟨fun a b => a.order ≤ b.order ∧ a.idx / 2 ^ (b.order - a.order) = b.idx⟩

theorem le_def {a b : Node} :
    a ≤ b ↔ a.order ≤ b.order ∧ a.idx / 2 ^ (b.order - a.order) = b.idx := Iff.rfl

instance (a b : Node) : Decidable (a ≤ b) := decidable_of_iff _ le_def.symm

theorem div_pow_sub {i a b c : ℕ} (hab : a ≤ b) (hbc : b ≤ c) :
    i / 2 ^ (b - a) / 2 ^ (c - b) = i / 2 ^ (c - a) := by
  rw [Nat.div_div_eq_div_mul, ← Nat.pow_add]
  congr 2; omega

instance : PartialOrder Node where
  le_refl a := ⟨Nat.le_refl _, by simp⟩
  le_trans a b c := by
    rintro ⟨hab, iab⟩ ⟨hbc, ibc⟩
    refine ⟨Nat.le_trans hab hbc, ?_⟩
    rw [← ibc, ← iab]
    exact (div_pow_sub hab hbc).symm
  le_antisymm a b := by
    rintro ⟨hab, iab⟩ ⟨hba, -⟩
    have ho : a.order = b.order := Nat.le_antisymm hab hba
    refine Node.ext ho ?_
    simpa [ho] using iab

/-- Two nodes above a common one are comparable. -/
theorem le_total_above {a b c : Node} (hb : a ≤ b) (hc : a ≤ c) : b ≤ c ∨ c ≤ b := by
  rcases Nat.le_total b.order c.order with h | h
  · exact Or.inl ⟨h, by rw [← hb.2, ← hc.2]; exact div_pow_sub hb.1 h⟩
  · exact Or.inr ⟨h, by rw [← hb.2, ← hc.2]; exact div_pow_sub hc.1 h⟩

theorem eq_of_le_of_order_le {a b : Node} (h : a ≤ b) (ho : b.order ≤ a.order) : a = b := by
  have he : a.order = b.order := Nat.le_antisymm h.1 ho
  refine Node.ext he ?_
  simpa [he] using h.2

theorem order_lt_of_lt {a b : Node} (h : a < b) : a.order < b.order := by
  by_contra hn
  exact h.ne (eq_of_le_of_order_le h.le (Nat.le_of_not_lt hn))

/-! ## Parent, children, sibling -/

def parent (n : Node) : Node := ⟨n.order + 1, n.idx / 2⟩

def left (n : Node) : Node := ⟨n.order - 1, 2 * n.idx⟩

def right (n : Node) : Node := ⟨n.order - 1, 2 * n.idx + 1⟩

/-- The other child of the parent. -/
def sibling (n : Node) : Node := ⟨n.order, n.idx ^^^ 1⟩

@[simp] theorem parent_order (n : Node) : n.parent.order = n.order + 1 := rfl
@[simp] theorem parent_idx (n : Node) : n.parent.idx = n.idx / 2 := rfl
@[simp] theorem left_order (n : Node) : n.left.order = n.order - 1 := rfl
@[simp] theorem right_order (n : Node) : n.right.order = n.order - 1 := rfl
@[simp] theorem sibling_order (n : Node) : n.sibling.order = n.order := rfl

theorem le_parent (n : Node) : n ≤ n.parent := ⟨Nat.le_succ _, by simp [parent]⟩

theorem lt_parent (n : Node) : n < n.parent :=
  lt_of_le_of_ne (le_parent n) fun h => by
    have := congrArg Node.order h
    simp at this

theorem lt_iff_parent_le {a b : Node} : a < b ↔ a.parent ≤ b := by
  constructor
  · intro h
    have ho := order_lt_of_lt h
    refine ⟨ho, ?_⟩
    rw [← h.le.2, parent_idx, parent_order, Nat.div_div_eq_div_mul, ← Nat.pow_succ']
    congr 2; omega
  · exact fun h => lt_of_lt_of_le (lt_parent a) h

theorem left_parent {n : Node} (h : 0 < n.order) : n.left.parent = n :=
  Node.ext (by simp; omega) (by simp [left])

theorem right_parent {n : Node} (h : 0 < n.order) : n.right.parent = n :=
  Node.ext (by simp; omega) (by simp [right]; omega)

theorem left_lt {n : Node} (h : 0 < n.order) : n.left < n :=
  lt_iff_parent_le.mpr (left_parent h).le

theorem right_lt {n : Node} (h : 0 < n.order) : n.right < n :=
  lt_iff_parent_le.mpr (right_parent h).le

/-- What is strictly below a node is below one of its children. -/
theorem lt_iff_le_child {a n : Node} (h : 0 < n.order) :
    a < n ↔ a ≤ n.left ∨ a ≤ n.right := by
  constructor
  · intro hlt
    have ho := order_lt_of_lt hlt
    have hidx : a.idx / 2 ^ (n.order - 1 - a.order) / 2 = n.idx := by
      rw [← hlt.le.2, Nat.div_div_eq_div_mul, ← Nat.pow_succ]
      congr 2; omega
    rcases Nat.mod_two_eq_zero_or_one (a.idx / 2 ^ (n.order - 1 - a.order)) with he | he
    · exact Or.inl ⟨Nat.le_sub_one_of_lt ho, by simp only [left]; omega⟩
    · exact Or.inr ⟨Nat.le_sub_one_of_lt ho, by simp only [right]; omega⟩
  · rintro (hl | hr)
    · exact lt_of_le_of_lt hl (left_lt h)
    · exact lt_of_le_of_lt hr (right_lt h)

/-- A node and its sibling are the two children of its parent. -/
theorem sibling_cases (n : Node) :
    (n = n.parent.left ∧ n.sibling = n.parent.right) ∨
      (n = n.parent.right ∧ n.sibling = n.parent.left) := by
  rcases Nat.mod_two_eq_zero_or_one n.idx with h | h
  · refine Or.inl ⟨Node.ext (by simp) ?_, Node.ext (by simp) ?_⟩
    · simp only [left, parent]; omega
    · simp only [sibling, right, parent]
      rw [Nat.xor_one_of_even (Nat.even_iff.mpr h)]; omega
  · refine Or.inr ⟨Node.ext (by simp) ?_, Node.ext (by simp) ?_⟩
    · simp only [right, parent]; omega
    · simp only [sibling, left, parent]
      rw [Nat.xor_one_of_odd (Nat.odd_iff.mpr h)]; omega

@[simp] theorem sibling_parent (n : Node) : n.sibling.parent = n.parent := by
  rcases sibling_cases n with ⟨-, h⟩ | ⟨-, h⟩
  · rw [h]; refine Node.ext (by simp) ?_; simp [right]; omega
  · rw [h]; refine Node.ext (by simp) ?_; simp [left]

theorem sibling_ne (n : Node) : n.sibling ≠ n := by
  intro h
  rcases sibling_cases n with ⟨hn, hs⟩ | ⟨hn, hs⟩
  · have hi := congrArg Node.idx (hs.symm.trans (h.trans hn))
    simp [left, right] at hi
  · have hi := congrArg Node.idx (hs.symm.trans (h.trans hn))
    simp [left, right] at hi

/-- The sibling of a node is not comparable with it. -/
theorem not_le_sibling (n : Node) : ¬ n ≤ n.sibling := fun h =>
  sibling_ne n (eq_of_le_of_order_le h (by simp)).symm

theorem not_sibling_le (n : Node) : ¬ n.sibling ≤ n := fun h =>
  sibling_ne n (eq_of_le_of_order_le h (by simp))

/-! ## Ancestors and the indices of a block -/

/-- The node of order `k` above `n`. -/
def above (n : Node) (k : ℕ) : Node := ⟨k, n.idx / 2 ^ (k - n.order)⟩

theorem le_above {n : Node} {k : ℕ} (h : n.order ≤ k) : n ≤ n.above k := ⟨h, rfl⟩

theorem lt_above {n : Node} {k : ℕ} (h : n.order < k) : n < n.above k :=
  lt_of_le_of_ne (le_above h.le) fun he => h.ne (congrArg Node.order he)

theorem eq_above {n m : Node} (h : n ≤ m) : m = n.above m.order := Node.ext rfl h.2.symm

theorem above_succ_order (n : Node) : n.above (n.order + 1) = n.parent := by simp [above, parent]

theorem above_parent {n : Node} {k : ℕ} (h : n.order ≤ k) :
    (n.above k).parent = n.above (k + 1) := by
  refine Node.ext rfl ?_
  simp only [above, parent_idx, Nat.div_div_eq_div_mul, ← Nat.pow_succ]
  congr 2; omega

/-- The leaf of an index. -/
def leaf (i : ℕ) : Node := ⟨0, i⟩

theorem not_lt_leaf {n : Node} {i : ℕ} : ¬ n < leaf i := fun h =>
  Nat.not_lt_zero _ (order_lt_of_lt h)

theorem leaf_le_iff {i : ℕ} {n : Node} : leaf i ≤ n ↔ i / 2 ^ n.order = n.idx := by
  simp [le_def, leaf]

/-- The indices of a block, as an interval. -/
theorem leaf_le_iff_mem {i : ℕ} {n : Node} :
    leaf i ≤ n ↔ n.idx * 2 ^ n.order ≤ i ∧ i < n.idx * 2 ^ n.order + 2 ^ n.order := by
  rw [leaf_le_iff, Nat.div_eq_iff (Nat.two_pow_pos _)]
  have := Nat.two_pow_pos n.order
  omega

theorem leaf_le_self (n : Node) : leaf (n.idx * 2 ^ n.order) ≤ n := by
  rw [leaf_le_iff, Nat.mul_div_cancel _ (Nat.two_pow_pos _)]

/-- Every node has a leaf below it, so blocks with no common index are incomparable. -/
theorem not_le_of_disjoint {a b : Node} (h : ∀ i, leaf i ≤ a → ¬ leaf i ≤ b) : ¬ a ≤ b :=
  fun hab => h _ (leaf_le_self a) (le_trans (leaf_le_self a) hab)

theorem disjoint_of_not_le {a b : Node} (hab : ¬ a ≤ b) (hba : ¬ b ≤ a) (i : ℕ) :
    ¬ (leaf i ≤ a ∧ leaf i ≤ b) := fun ⟨ha, hb⟩ =>
  (le_total_above ha hb).elim hab hba

/-- One block lies in another exactly if its leaves do. -/
theorem le_iff_forall_leaf {a b : Node} : a ≤ b ↔ ∀ i, leaf i ≤ a → leaf i ≤ b := by
  refine ⟨fun h i hi => hi.trans h, fun h => ?_⟩
  have hfirst := h _ (leaf_le_self a)
  rcases le_total_above (leaf_le_self a) hfirst with hab | hba
  · exact hab
  · -- the last leaf of `a` lies in `b`, so `b` is no smaller
    have hlast := h (a.idx * 2 ^ a.order + (2 ^ a.order - 1)) (by
      have := Nat.two_pow_pos a.order
      rw [leaf_le_iff_mem]; omega)
    rw [leaf_le_iff_mem] at hfirst hlast
    have hpos := Nat.two_pow_pos a.order
    have hle : 2 ^ a.order ≤ 2 ^ b.order := by omega
    have ho := (Nat.pow_le_pow_iff_right (by decide : 1 < 2)).mp hle
    exact (eq_of_le_of_order_le hba ho).ge

/-- Below a node there is one of every smaller order: the leftmost. -/
theorem exists_le_of_order {n : Node} {k : ℕ} (h : k ≤ n.order) :
    ∃ m ≤ n, m.order = k :=
  ⟨⟨k, n.idx * 2 ^ (n.order - k)⟩, ⟨h, by simp [Nat.mul_div_cancel _ (Nat.two_pow_pos _)]⟩, rfl⟩

end Node

end Koe
