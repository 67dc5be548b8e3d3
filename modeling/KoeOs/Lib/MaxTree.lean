/-
# `KoeOs.Lib.MaxTree` — a forest whose nodes carry the maximum of their children

Two descriptions of the same values, and the theorem that joins them.

* `summary full whole live` is what the values *are*: a node in `live` carries
  `⊥`, another node in `whole` carries `full` of its order, and every other node
  the maximum of its children (a leaf: `⊥`).
* `fixup v m n` is how they are *maintained*: after the value at `n` changed,
  walk up from `n`, recompute each parent from its two children, and stop as
  soon as a parent already has the recomputed value.

`fixup_eq` says when the walk, early stop included, leaves every node with its
intended value.  The early stop needs a reason why nothing above the stopping
point was wrong, and that is its third hypothesis: an ancestor which already
has its intended value passes it on correctly.
-/
import KoeOs.Lib.Dyadic

namespace Koe.MaxTree

open Node

section Fixup

variable {α : Type*} [LinearOrder α]

/-- Recompute at most `m` ancestors of `n`, stopping at one that needs no change. -/
def fixup (v : Node → α) : ℕ → Node → Node → α
  | 0, _ => v
  | m + 1, n =>
      let par := max (v n) (v n.sibling)
      if v n.parent = par then v else fixup (Function.update v n.parent par) m n.parent

/-- The maximum over a node and its sibling is the maximum over the parent's children. -/
theorem max_sibling (v : Node → α) (n : Node) :
    max (v n) (v n.sibling) = max (v n.parent.left) (v n.parent.right) := by
  rcases sibling_cases n with ⟨h₁, h₂⟩ | ⟨h₁, h₂⟩
  · rw [← h₁, ← h₂]
  · rw [← h₁, ← h₂, max_comm]

/-- The walk sees only the levels it reaches. -/
theorem fixup_congr (m : ℕ) : ∀ {v w : Node → α} {n : Node},
    (∀ a, a.order ≤ n.order + m → v a = w a) →
      ∀ a, a.order ≤ n.order + m → fixup v m n a = fixup w m n a := by
  induction m with
  | zero => intro v w n h a ha; exact h a ha
  | succ m ih =>
      intro v w n h a ha
      have hn := h n (by omega)
      have hs := h n.sibling (by rw [sibling_order]; omega)
      have hp := h n.parent (by rw [parent_order]; omega)
      simp only [fixup, hn, hs, hp]
      split
      · exact h a ha
      · refine ih (fun b hb => ?_) a (by rw [parent_order]; omega)
        by_cases he : b = n.parent
        · rw [he, Function.update_self, Function.update_self]
        · rw [Function.update_of_ne he, Function.update_of_ne he]
          exact h b (by rw [parent_order] at hb; omega)

/-- What the walk writes comes from a child, so it is at most what `full` allows
one order lower. -/
theorem fixup_cases {full : ℕ → α} (hfull : Monotone full) (m : ℕ) : ∀ {v : Node → α} {n : Node},
    (∀ a, v a ≤ full a.order) →
      ∀ a, fixup v m n a = v a ∨ n < a ∧ fixup v m n a ≤ full (a.order - 1) := by
  induction m with
  | zero => intro v n _ a; exact .inl rfl
  | succ m ih =>
      intro v n hv a
      have hpar : max (v n) (v n.sibling) ≤ full n.order := max_le (hv n) (hv n.sibling)
      simp only [fixup]
      split
      · exact .inl rfl
      · have hv' : ∀ b, Function.update v n.parent (max (v n) (v n.sibling)) b ≤ full b.order := by
          intro b
          by_cases he : b = n.parent
          · rw [he, Function.update_self]
            exact hpar.trans (hfull (Nat.le_succ n.order))
          · rw [Function.update_of_ne he]
            exact hv b
        rcases ih (n := n.parent) hv' a with h | ⟨hlt, hle⟩
        · rw [h]
          by_cases he : a = n.parent
          · subst he
            rw [Function.update_self]
            exact .inr ⟨lt_parent n, hpar⟩
          · exact .inl (Function.update_of_ne he _ _)
        · exact .inr ⟨(lt_parent n).trans hlt, hle⟩

/-- The walk from `n` repairs `v` to the intended values `r`, `m` levels up.

The values agree with `r` off the ancestors of `n`; on the ancestors `r` is the
maximum of the children; and an ancestor `p` that carries its intended value
already has a parent that is the maximum of `p` and its sibling. -/
structure Repairs (v r : Node → α) (m : ℕ) (n : Node) : Prop where
  same : ∀ a, ¬ n < a → v a = r a
  split : ∀ a, n < a → a.order ≤ n.order + m → r a = max (r a.left) (r a.right)
  stop : ∀ p, n < p → p.order < n.order + m → v p = r p → v p.parent = max (v p) (v p.sibling)

namespace Repairs

variable {v r : Node → α} {m : ℕ} {n : Node}

/-- The sibling of an ancestor is no ancestor. -/
theorem sibling (h : Repairs v r m n) {p : Node} (hp : n ≤ p) : v p.sibling = r p.sibling :=
  h.same _ fun hlt => (le_total_above hlt.le hp).elim (not_sibling_le p) (not_le_sibling p)

theorem parent (h : Repairs v r (m + 1) n) : max (v n) (v n.sibling) = r n.parent := by
  rw [h.same n (lt_irrefl n), h.sibling le_rfl, max_sibling,
    ← h.split n.parent (lt_parent n) (by simp)]

/-- If the parent has its intended value already, then so has every ancestor. -/
theorem above (h : Repairs v r (m + 1) n) (hpar : v n.parent = r n.parent) :
    ∀ k, n.order + 1 ≤ k → k ≤ n.order + (m + 1) → v (n.above k) = r (n.above k) := by
  intro k hk
  induction k, hk using Nat.le_induction with
  | base =>
      intro _
      rw [above_succ_order]
      exact hpar
  | succ k hk ih =>
      intro hle
      have hlt : n < n.above k := lt_above hk
      have hup : (n.above k).parent = n.above (k + 1) := above_parent (Nat.le_of_succ_le hk)
      have hagree := ih (Nat.le_of_succ_le hle)
      have hmax := h.stop _ hlt hle hagree
      rw [hagree, h.sibling hlt.le, max_sibling, hup] at hmax
      rw [hmax]
      exact (h.split _ (lt_above (hk.trans (Nat.le_succ k))) hle).symm

/-- One step of the walk. -/
theorem up (h : Repairs v r (m + 1) n) :
    Repairs (Function.update v n.parent (max (v n) (v n.sibling))) r m n.parent where
  same b hb := by
    by_cases he : b = n.parent
    · rw [he, Function.update_self, h.parent]
    · rw [Function.update_of_ne he]
      refine h.same b fun hlt => ?_
      exact hb (lt_of_le_of_ne (lt_iff_parent_le.mp hlt) (Ne.symm he))
  split b hb hbo := h.split b (lt_trans (lt_parent n) hb) (by rw [parent_order] at hbo; omega)
  stop p hp hpo hvp := by
    have hne : ∀ q : Node, n.parent.order < q.order → q ≠ n.parent := fun q hq he => by
      rw [he] at hq; exact Nat.lt_irrefl _ hq
    have ho := order_lt_of_lt hp
    rw [Function.update_of_ne (hne p ho)] at hvp ⊢
    rw [Function.update_of_ne (hne p.parent (by rw [parent_order p]; omega)),
      Function.update_of_ne (hne p.sibling ho)]
    exact h.stop p (lt_trans (lt_parent n) hp) (by rw [parent_order] at hpo; omega) hvp

end Repairs

/-- The walk leaves every node with its intended value. -/
theorem fixup_eq {r : Node → α} (m : ℕ) : ∀ {v : Node → α} {n : Node}, Repairs v r m n →
    ∀ a, a.order ≤ n.order + m → fixup v m n a = r a := by
  induction m with
  | zero =>
      intro v n h a ha
      exact h.same a fun hlt => absurd (order_lt_of_lt hlt) (Nat.not_lt.mpr ha)
  | succ m ih =>
      intro v n h a ha
      simp only [fixup]
      split
      · -- the walk stops here: the agreement is carried up from `n.parent`
        rename_i hstopped
        by_cases hna : n < a
        · rw [eq_above hna.le]
          exact h.above (hstopped.trans h.parent) _ (order_lt_of_lt hna) ha
        · exact h.same a hna
      · exact ih h.up a (by rw [parent_order]; omega)

end Fixup

section Summary

variable {α : Type*} [LinearOrder α] [OrderBot α] (full : ℕ → α) (whole live : Set Node)

open Classical in
/-- `summary`, by recursion on the order. -/
noncomputable def summaryAt : ℕ → ℕ → α
  | 0, j => if ⟨0, j⟩ ∈ live then ⊥ else if ⟨0, j⟩ ∈ whole then full 0 else ⊥
  | k + 1, j =>
      if ⟨k + 1, j⟩ ∈ live then ⊥
      else if ⟨k + 1, j⟩ ∈ whole then full (k + 1)
      else max (summaryAt k (2 * j)) (summaryAt k (2 * j + 1))

/-- The value of a node: `⊥` if live, `full` of its order if whole, else the
maximum of its children. -/
noncomputable def summary (n : Node) : α := summaryAt full whole live n.order n.idx

variable {full whole live} {n : Node}

theorem summary_of_live (h : n ∈ live) : summary full whole live n = ⊥ := by
  obtain ⟨k, j⟩ := n
  cases k with
  | zero => simp [summary, summaryAt, h]
  | succ k => simp [summary, summaryAt, h]

theorem summary_of_whole (h : n ∈ whole) (hl : n ∉ live) :
    summary full whole live n = full n.order := by
  obtain ⟨k, j⟩ := n
  cases k with
  | zero => simp [summary, summaryAt, h, hl]
  | succ k => simp [summary, summaryAt, h, hl]

theorem summary_of_leaf (h : n ∉ whole) (ho : n.order = 0) :
    summary full whole live n = ⊥ := by
  obtain ⟨k, j⟩ := n
  simp only at ho; subst ho
  simp [summary, summaryAt, h]

theorem summary_of_split (h : n ∉ whole) (hl : n ∉ live) (ho : 0 < n.order) :
    summary full whole live n =
      max (summary full whole live n.left) (summary full whole live n.right) := by
  obtain ⟨k, j⟩ := n
  cases k with
  | zero => exact absurd ho (Nat.lt_irrefl 0)
  | succ k => simp [summary, summaryAt, h, hl, left, right]

/-- Induction over a node and everything below it. -/
theorem node_induction {P : Node → Prop}
    (leaf : ∀ n : Node, n.order = 0 → P n)
    (step : ∀ n : Node, 0 < n.order → P n.left → P n.right → P n) (n : Node) : P n := by
  obtain ⟨k, j⟩ := n
  induction k generalizing j with
  | zero => exact leaf _ rfl
  | succ k ih => exact step _ (Nat.succ_pos k) (ih _) (ih _)

/-- The value of a node depends only on what is below it. -/
theorem summary_congr {whole' live' : Set Node} (n : Node)
    (h : ∀ m ≤ n, (m ∈ whole ↔ m ∈ whole') ∧ (m ∈ live ↔ m ∈ live')) :
    summary full whole live n = summary full whole' live' n := by
  induction n using node_induction with
  | leaf n ho =>
      obtain ⟨hw, hl⟩ := h n le_rfl
      by_cases h1 : n ∈ live
      · rw [summary_of_live h1, summary_of_live (hl.mp h1)]
      · by_cases h2 : n ∈ whole
        · rw [summary_of_whole h2 h1, summary_of_whole (hw.mp h2) fun h => h1 (hl.mpr h)]
        · rw [summary_of_leaf h2 ho, summary_of_leaf (fun h => h2 (hw.mpr h)) ho]
  | step n ho ihl ihr =>
      obtain ⟨hw, hl⟩ := h n le_rfl
      by_cases h1 : n ∈ live
      · rw [summary_of_live h1, summary_of_live (hl.mp h1)]
      · by_cases h2 : n ∈ whole
        · rw [summary_of_whole h2 h1, summary_of_whole (hw.mp h2) fun h => h1 (hl.mpr h)]
        · rw [summary_of_split h2 h1 ho,
            summary_of_split (fun h => h2 (hw.mpr h)) (fun h => h1 (hl.mpr h)) ho,
            ihl fun m hm => h m (le_trans hm (left_lt ho).le),
            ihr fun m hm => h m (le_trans hm (right_lt ho).le)]

variable (hfull : StrictMono full) (hbot : ⊥ < full 0)
include hfull

theorem summary_le (n : Node) : summary full whole live n ≤ full n.order := by
  induction n using node_induction with
  | leaf n ho =>
      by_cases h1 : n ∈ live
      · rw [summary_of_live h1]; exact bot_le
      · by_cases h2 : n ∈ whole
        · rw [summary_of_whole h2 h1]
        · rw [summary_of_leaf h2 ho]; exact bot_le
  | step n ho ihl ihr =>
      by_cases h1 : n ∈ live
      · rw [summary_of_live h1]; exact bot_le
      · by_cases h2 : n ∈ whole
        · rw [summary_of_whole h2 h1]
        · rw [summary_of_split h2 h1 ho]
          have hm : full (n.order - 1) ≤ full n.order := hfull.monotone (Nat.sub_le _ _)
          exact max_le (le_trans ihl hm) (le_trans ihr hm)

include hbot

/-- A node that is not whole carries less than `full` of its order. -/
theorem summary_lt (h : n ∉ whole) : summary full whole live n < full n.order := by
  have hpos : ⊥ < full n.order := lt_of_lt_of_le hbot (hfull.monotone (Nat.zero_le _))
  rcases Nat.eq_zero_or_pos n.order with ho | ho
  · rw [summary_of_leaf h ho]; exact hpos
  · by_cases h1 : n ∈ live
    · rw [summary_of_live h1]; exact hpos
    · rw [summary_of_split h h1 ho]
      have hm : full (n.order - 1) < full n.order := hfull (by omega)
      exact max_lt (lt_of_le_of_lt (summary_le hfull n.left) hm)
        (lt_of_le_of_lt (summary_le hfull n.right) hm)

theorem summary_eq_full_iff :
    summary full whole live n = full n.order ↔ n ∈ whole ∧ n ∉ live := by
  constructor
  · intro h
    have hw : n ∈ whole := by
      by_contra hn
      exact absurd h (summary_lt hfull hbot hn).ne
    refine ⟨hw, fun hl => ?_⟩
    rw [summary_of_live hl] at h
    exact absurd h (lt_of_lt_of_le hbot (hfull.monotone (Nat.zero_le _))).ne
  · exact fun ⟨hw, hl⟩ => summary_of_whole hw hl

end Summary

end Koe.MaxTree
