/-
# `KoeOs.Lib.Pool` — what a buddy allocator without merging keeps

A `Pool` is the abstract state of a buddy allocator that splits blocks and never
joins them again.

    whole   the blocks that have not been split: closed downwards
    live    the blocks handed out: each whole, none with a whole parent

Handing out a free block `n` removes every block strictly above `n` from `whole`
(that is the split) and puts `n` in `live`; taking it back removes it from
`live` and changes `whole` not at all.  So `whole` only ever shrinks, and a block
that was split stays split.

From the two invariants alone, live blocks are pairwise disjoint
(`Pool.live_antichain`).  The values a max tree has for a pool are
`Pool.value`, and the last section says how each operation changes them: one
local write and one `fixup`.
-/
import KoeOs.Lib.MaxTree

namespace Koe

open Node MaxTree

/-- Unsplit blocks, and those of them that are handed out. -/
structure Pool where
  whole : LowerSet Node
  live : Set Node
  live_whole : ∀ n ∈ live, n ∈ whole
  live_top : ∀ n ∈ live, n.parent ∉ whole

namespace Pool

variable {P : Pool} {n m : Node}

/-- A block that can be handed out: unsplit, and in no live block. -/
def Free (P : Pool) (n : Node) : Prop := n ∈ P.whole ∧ ∀ l ∈ P.live, ¬ n ≤ l

theorem not_whole_of_live_lt (hn : n ∈ P.live) (h : n < m) : m ∉ P.whole := fun hm =>
  P.live_top n hn (P.whole.lower (lt_iff_parent_le.mp h) hm)

/-- One live block is never inside another. -/
theorem live_antichain (hn : n ∈ P.live) (hm : m ∈ P.live) (h : n ≤ m) : n = m := by
  by_contra hne
  exact not_whole_of_live_lt hn (lt_of_le_of_ne h hne) (P.live_whole m hm)

theorem live_disjoint (hn : n ∈ P.live) (hm : m ∈ P.live) (hne : n ≠ m) (i : ℕ) :
    ¬ (leaf i ≤ n ∧ leaf i ≤ m) :=
  disjoint_of_not_le (fun h => hne (live_antichain hn hm h))
    (fun h => hne (live_antichain hm hn h).symm) i

theorem Free.not_live (h : P.Free n) : n ∉ P.live := fun hl => h.2 n hl le_rfl

/-- Nothing live lies below a free block. -/
theorem Free.not_live_of_le (h : P.Free n) (hm : m ≤ n) : m ∉ P.live := by
  intro hl
  rcases eq_or_lt_of_le hm with rfl | hlt
  · exact h.not_live hl
  · exact not_whole_of_live_lt hl hlt h.1

theorem Free.mono (h : P.Free n) (hm : m ≤ n) : P.Free m := by
  refine ⟨P.whole.lower hm h.1, fun l hl hml => ?_⟩
  rcases le_total_above hm hml with hnl | hln
  · exact h.2 l hl hnl
  · exact h.not_live_of_le hln hl

/-- A node that lies inside no live block is free if it is whole and not live itself. -/
theorem free_of_whole (hw : n ∈ P.whole) (hl : n ∉ P.live) (hout : ∀ l ∈ P.live, ¬ n < l) :
    P.Free n := ⟨hw, fun l hll hle => by
  rcases eq_or_lt_of_le hle with rfl | hlt
  · exact hl hll
  · exact hout l hll hlt⟩

/-- The children of a node that is not live lie inside a live block only if it does. -/
theorem not_lt_of_parent {c : Node} (hc : c.parent = n) (hl : n ∉ P.live)
    (hout : ∀ l ∈ P.live, ¬ n < l) : ∀ l ∈ P.live, ¬ c < l := fun l hll hlt => by
  rw [lt_iff_parent_le, hc] at hlt
  rcases eq_or_lt_of_le hlt with rfl | hlt
  · exact hl hll
  · exact hout l hll hlt

/-! ## The operations -/

/-- Nothing whole. -/
def empty : Pool where
  whole := ⊥
  live := ∅
  live_whole _ h := h.elim
  live_top _ h := h.elim

/-- Bring in a block that touches nothing whole. -/
def add (P : Pool) (n : Node) (h : ∀ m ∈ P.whole, ¬ m ≤ n ∧ ¬ n ≤ m) : Pool where
  whole := P.whole ⊔ LowerSet.Iic n
  live := P.live
  live_whole l hl := Or.inl (P.live_whole l hl)
  live_top l hl := by
    rintro (hw | hle)
    · exact P.live_top l hl hw
    · exact (h l (P.live_whole l hl)).1 (le_trans (le_parent l) hle)

/-- Hand out a free block: what was above it is split. -/
def take (P : Pool) (n : Node) (h : P.Free n) : Pool where
  whole := ⟨{m | m ∈ P.whole ∧ ¬ n < m}, fun _ _ hle hm =>
    ⟨P.whole.lower hle hm.1, fun hlt => hm.2 (lt_of_lt_of_le hlt hle)⟩⟩
  live := insert n P.live
  live_whole l hl := by
    rcases hl with rfl | hl
    · exact ⟨h.1, lt_irrefl _⟩
    · exact ⟨P.live_whole l hl, fun hlt => h.2 l hl hlt.le⟩
  live_top l hl := by
    rintro ⟨hw, hnot⟩
    rcases hl with rfl | hl
    · exact hnot (lt_parent _)
    · exact P.live_top l hl hw

/-- Take a live block back; nothing is joined. -/
def give (P : Pool) (n : Node) : Pool where
  whole := P.whole
  live := P.live \ {n}
  live_whole l hl := P.live_whole l hl.1
  live_top l hl := P.live_top l hl.1

@[simp] theorem mem_empty_whole : n ∉ empty.whole := fun h => h.elim

@[simp] theorem empty_live : empty.live = ∅ := rfl

section Mem

variable {h : ∀ m ∈ P.whole, ¬ m ≤ n ∧ ¬ n ≤ m} {hf : P.Free n}

theorem mem_add_whole : m ∈ (P.add n h).whole ↔ m ∈ P.whole ∨ m ≤ n := Iff.rfl

theorem mem_take_whole : m ∈ (P.take n hf).whole ↔ m ∈ P.whole ∧ ¬ n < m := Iff.rfl

@[simp] theorem take_live : (P.take n hf).live = insert n P.live := rfl

@[simp] theorem give_live : (P.give n).live = P.live \ {n} := rfl

/-- Handing out a block splits something exactly when its parent was whole. -/
theorem take_whole_eq_iff : (P.take n hf).whole = P.whole ↔ n.parent ∉ P.whole := by
  constructor
  · intro he hp
    rw [← he] at hp
    exact (mem_take_whole.mp hp).2 (lt_parent n)
  · intro hp
    ext m
    refine ⟨fun hm => hm.1, fun hm => ⟨hm, fun hlt => hp ?_⟩⟩
    exact P.whole.lower (lt_iff_parent_le.mp hlt) hm

theorem take_whole_le : (P.take n hf).whole ≤ P.whole := fun _ hm => hm.1

/-- Handing out a block takes exactly its own leaves. -/
theorem take_free_leaf {i : ℕ} : (P.take n hf).Free (leaf i) ↔ P.Free (leaf i) ∧ ¬ leaf i ≤ n := by
  constructor
  · rintro ⟨hw, hl⟩
    exact ⟨⟨hw.1, fun l hll => hl l (.inr hll)⟩, hl n (.inl rfl)⟩
  · rintro ⟨⟨hw, hl⟩, hn⟩
    refine ⟨⟨hw, not_lt_leaf⟩, ?_⟩
    rintro l (rfl | hll)
    · exact hn
    · exact hl l hll

/-- Taking a block back frees exactly its own leaves. -/
theorem give_free_leaf (hn : n ∈ P.live) {i : ℕ} :
    (P.give n).Free (leaf i) ↔ P.Free (leaf i) ∨ leaf i ≤ n := by
  constructor
  · rintro ⟨hw, hl⟩
    by_cases hle : leaf i ≤ n
    · exact .inr hle
    · refine .inl ⟨hw, fun l hll hli => hl l ⟨hll, ?_⟩ hli⟩
      rintro rfl
      exact hle hli
  · rintro (⟨hw, hl⟩ | hle)
    · exact ⟨hw, fun l hll => hl l hll.1⟩
    · refine ⟨P.whole.lower hle (P.live_whole n hn), fun l hll hli => hll.2 ?_⟩
      rcases le_total_above hle hli with h | h
      · exact (live_antichain hn hll.1 h).symm
      · exact live_antichain hll.1 hn h

end Mem

/-! ## The values of a max tree for a pool -/

section Value

variable {α : Type*} [LinearOrder α] [OrderBot α] (full : ℕ → α)

/-- The value a max tree has at a node. -/
noncomputable def value (P : Pool) (n : Node) : α := summary full P.whole P.live n

variable {full}

theorem value_of_live (h : n ∈ P.live) : P.value full n = ⊥ := summary_of_live h

theorem value_of_whole (h : n ∈ P.whole) (hl : n ∉ P.live) : P.value full n = full n.order :=
  summary_of_whole h hl

theorem value_of_split (h : n ∉ P.whole) (ho : 0 < n.order) :
    P.value full n = max (P.value full n.left) (P.value full n.right) :=
  summary_of_split h (fun hl => h (P.live_whole n hl)) ho

theorem value_of_leaf (h : n ∉ P.whole) (ho : n.order = 0) : P.value full n = ⊥ :=
  summary_of_leaf h ho

theorem value_empty (n : Node) : empty.value full n = ⊥ := by
  induction n using node_induction with
  | leaf n ho => exact value_of_leaf mem_empty_whole ho
  | step n ho ihl ihr => rw [value_of_split mem_empty_whole ho, ihl, ihr, max_self]

/-- Pools that agree below a node give it the same value. -/
theorem value_congr {Q : Pool} (n : Node)
    (h : ∀ m ≤ n, (m ∈ P.whole ↔ m ∈ Q.whole) ∧ (m ∈ P.live ↔ m ∈ Q.live)) :
    P.value full n = Q.value full n := summary_congr n h

variable (hfull : StrictMono full) (hbot : ⊥ < full 0)
include hfull

theorem value_le (P : Pool) (n : Node) : P.value full n ≤ full n.order := summary_le hfull n

include hbot

theorem value_eq_full_iff : P.value full n = full n.order ↔ n ∈ P.whole ∧ n ∉ P.live :=
  summary_eq_full_iff hfull hbot

theorem value_lt (h : n ∉ P.whole) : P.value full n < full n.order := summary_lt hfull hbot h

omit hbot in
/-- A node that is whole holds a free block of every order up to its own. -/
theorem full_le_value_of_whole {o : ℕ} (hw : n ∈ P.whole) (hl : n ∉ P.live)
    (hout : ∀ l ∈ P.live, ¬ n < l) :
    full o ≤ P.value full n ↔ ∃ m ≤ n, m.order = o ∧ P.Free m := by
  rw [value_of_whole hw hl, hfull.le_iff_le]
  constructor
  · intro ho
    obtain ⟨m, hm, hmo⟩ := exists_le_of_order ho
    exact ⟨m, hm, hmo, (free_of_whole hw hl hout).mono hm⟩
  · rintro ⟨m, hm, rfl, _⟩
    exact hm.1

/-- A node that holds nothing free. -/
theorem full_le_value_of_bot {o : ℕ} (hv : P.value full n = ⊥) (hn : ∀ m ≤ n, ¬ P.Free m) :
    full o ≤ P.value full n ↔ ∃ m ≤ n, m.order = o ∧ P.Free m := by
  have hpos : ⊥ < full o := lt_of_lt_of_le hbot (hfull.monotone (Nat.zero_le o))
  rw [hv]
  exact ⟨fun h => absurd h (not_le.mpr hpos), fun ⟨m, hm, _, hfree⟩ => absurd hfree (hn m hm)⟩

/-- What a value says: `full o` is reached exactly when a free block of order
`o` lies below.  This is the reading an allocator searches by. -/
theorem full_le_value_iff {o : ℕ} (r : Node) (hr : ∀ l ∈ P.live, ¬ r < l) :
    full o ≤ P.value full r ↔ ∃ m ≤ r, m.order = o ∧ P.Free m := by
  have hlive : ∀ r : Node, r ∈ P.live →
      (full o ≤ P.value full r ↔ ∃ m ≤ r, m.order = o ∧ P.Free m) := fun r hl =>
    full_le_value_of_bot hfull hbot (value_of_live hl) fun m hm hfree => hfree.2 r hl hm
  induction r using node_induction with
  | leaf r ho =>
      by_cases hl : r ∈ P.live
      · exact hlive r hl
      · by_cases hw : r ∈ P.whole
        · exact full_le_value_of_whole hfull hw hl hr
        · refine full_le_value_of_bot hfull hbot (value_of_leaf hw ho) fun m hm hfree => hw ?_
          exact eq_of_le_of_order_le hm (by omega) ▸ hfree.1
  | step r ho ihl ihr =>
      by_cases hl : r ∈ P.live
      · exact hlive r hl
      · by_cases hw : r ∈ P.whole
        · exact full_le_value_of_whole hfull hw hl hr
        · -- a free block below `r` lies below one of its children
          rw [value_of_split hw ho, le_max_iff]
          refine (or_congr (ihl (not_lt_of_parent (left_parent ho) hl hr))
            (ihr (not_lt_of_parent (right_parent ho) hl hr))).trans ?_
          constructor
          · rintro (⟨m, hm, h⟩ | ⟨m, hm, h⟩)
            · exact ⟨m, le_trans hm (left_lt ho).le, h⟩
            · exact ⟨m, le_trans hm (right_lt ho).le, h⟩
          · rintro ⟨m, hm, hmo, hfree⟩
            have hne : m ≠ r := fun he => hw (he ▸ hfree.1)
            rcases (lt_iff_le_child ho).mp (lt_of_le_of_ne hm hne) with h | h
            · exact Or.inl ⟨m, h, hmo, hfree⟩
            · exact Or.inr ⟨m, h, hmo, hfree⟩

end Value

/-! ## Maintaining the values

Each operation is one write at `n` (for `add`: one write to everything below
`n`) and a `fixup` from `n`.  Off the ancestors of `n` the two pools agree; on
them the three proofs differ only in why the old value was right. -/

section Maintain

variable {α : Type*} [LinearOrder α] [OrderBot α] {full : ℕ → α}

/-- Nodes that are neither above nor below `n` do not see a change made at `n`. -/
theorem value_eq_of_incomparable {Q : Pool} (hn : ¬ n ≤ m) (hm : ¬ m ≤ n)
    (h : ∀ a, ¬ n ≤ a → ¬ a ≤ n → ((a ∈ P.whole ↔ a ∈ Q.whole) ∧ (a ∈ P.live ↔ a ∈ Q.live))) :
    P.value full m = Q.value full m :=
  value_congr m fun a ha => h a (fun hna => hn (le_trans hna ha)) fun han =>
    (le_total_above ha han).elim hm hn

/-- The values after `add`: fill the block, then fix up. -/
theorem fixup_add {h : ∀ a ∈ P.whole, ¬ a ≤ n ∧ ¬ n ≤ a} {d : ℕ} :
    ∀ a : Node, a.order ≤ n.order + d →
      fixup (fun a => if a ≤ n then full a.order else P.value full a) d n a
        = (P.add n h).value full a := by
  have habove : ∀ a, n ≤ a → a ∉ P.whole := fun a ha hw => (h a hw).2 ha
  have hnew : ∀ a, n < a → a ∉ (P.add n h).whole := fun a ha hw =>
    (mem_add_whole.mp hw).elim (habove a ha.le) fun hle => absurd hle (not_le_of_gt ha)
  refine fixup_eq d ⟨?_, ?_, ?_⟩
  · intro a ha
    by_cases hle : a ≤ n
    · have hl : a ∉ (P.add n h).live := fun hl => (h a (P.live_whole a hl)).1 hle
      simp only [hle, if_true]
      exact (value_of_whole (mem_add_whole.mpr (Or.inr hle)) hl).symm
    · simp only [hle, if_false]
      refine value_eq_of_incomparable (n := n) ?_ hle fun b hb hbn => ?_
      · exact fun hna => ha (lt_of_le_of_ne hna fun he => hle he.symm.le)
      · exact ⟨⟨Or.inl, fun hb' => hb'.resolve_right hbn⟩, Iff.rfl⟩
  · intro a ha _
    exact value_of_split (hnew a ha) (Nat.zero_lt_of_lt (order_lt_of_lt ha))
  · intro p hp _ _
    have hpn : ∀ q : Node, n < q → ¬ q ≤ n := fun q hq => not_le_of_gt hq
    have hsib : ¬ p.sibling ≤ n := fun hle => not_sibling_le p (le_trans hle hp.le)
    have hup := lt_trans hp (lt_parent p)
    simp only [hpn p hp, hsib, hpn p.parent hup, if_false]
    rw [max_sibling, value_of_split (habove _ hup.le) (Nat.succ_pos _)]

/-- The values after `give`: write `full` at the block, then fix up. -/
theorem fixup_give (hn : n ∈ P.live) {d : ℕ} :
    ∀ a : Node, a.order ≤ n.order + d →
      fixup (Function.update (P.value full) n (full n.order)) d n a = (P.give n).value full a := by
  have habove : ∀ a, n < a → a ∉ P.whole := fun a ha => not_whole_of_live_lt hn ha
  refine fixup_eq d ⟨?_, ?_, ?_⟩
  · intro a ha
    by_cases he : a = n
    · rw [he, Function.update_self]
      exact (value_of_whole (P := P.give n) (P.live_whole n hn) fun hl => hl.2 rfl).symm
    · rw [Function.update_of_ne he]
      refine value_congr a fun b hb => ⟨Iff.rfl, fun hl => ⟨hl, fun hbn => ?_⟩, fun hl => hl.1⟩
      -- `b = n` would put `n` below `a`
      cases hbn
      exact ha (lt_of_le_of_ne hb (Ne.symm he))
  · intro a ha _
    exact value_of_split (P := P.give n) (habove a ha) (Nat.zero_lt_of_lt (order_lt_of_lt ha))
  · intro p hp _ _
    have hne : ∀ q : Node, n.order < q.order → q ≠ n := fun q hq he => by
      rw [he] at hq; exact Nat.lt_irrefl _ hq
    have ho := order_lt_of_lt hp
    rw [Function.update_of_ne (hne p ho), Function.update_of_ne (hne p.sibling ho),
      Function.update_of_ne (hne p.parent (by rw [parent_order]; omega)), max_sibling,
      value_of_split (habove _ (lt_trans hp (lt_parent p))) (Nat.succ_pos _)]

/-- The values after `take`: write `⊥` at the block, then fix up.

Here an ancestor `p` may have been whole.  It then carried `full` of its order
and must now carry less, so it did not have its intended value. -/
theorem fixup_take (hfull : StrictMono full) (hbot : ⊥ < full 0) {hf : P.Free n} {d : ℕ} :
    ∀ a : Node, a.order ≤ n.order + d →
      fixup (Function.update (P.value full) n ⊥) d n a = (P.take n hf).value full a := by
  have hnew : ∀ a, n < a → a ∉ (P.take n hf).whole := fun a ha hw => hw.2 ha
  refine fixup_eq d ⟨?_, ?_, ?_⟩
  · intro a ha
    by_cases he : a = n
    · rw [he, Function.update_self]
      exact (value_of_live (P := P.take n hf) (Or.inl rfl)).symm
    · rw [Function.update_of_ne he]
      refine value_congr a fun b hb => ⟨⟨fun hw => ⟨hw, fun hlt => ?_⟩, fun hw => hw.1⟩,
        Or.inr, fun hl => hl.resolve_left fun hbn => ?_⟩
      · exact ha (lt_of_lt_of_le hlt hb)
      · rw [hbn] at hb
        exact ha (lt_of_le_of_ne hb (Ne.symm he))
  · intro a ha _
    exact value_of_split (hnew a ha) (Nat.zero_lt_of_lt (order_lt_of_lt ha))
  · intro p hp _ hvp
    have hne : ∀ q : Node, n.order < q.order → q ≠ n := fun q hq he => by
      rw [he] at hq; exact Nat.lt_irrefl _ hq
    have ho := order_lt_of_lt hp
    rw [Function.update_of_ne (hne p ho)] at hvp ⊢
    have hpw : p ∉ P.whole := by
      intro hw
      have hl : p ∉ P.live := fun hl => hf.2 p hl hp.le
      rw [value_of_whole hw hl] at hvp
      exact absurd hvp (value_lt hfull hbot (hnew p hp)).ne'
    have hup : p.parent ∉ P.whole := fun hw => hpw (P.whole.lower (le_parent p) hw)
    rw [Function.update_of_ne (hne p.sibling ho),
      Function.update_of_ne (hne p.parent (by rw [parent_order]; omega)), max_sibling,
      value_of_split hup (Nat.succ_pos _)]

end Maintain

end Pool

end Koe
