/-
# `KoeOs.Phy.Forced` — `free_forced` at any index

`free_forced` shifts its index down by the order at every level, so an index that
is not a multiple of the block marks different pages at different levels:

    level of order k     2 ^ (order - k) nodes from idx >> k on
    order 0              the pages idx, …, idx + 2 ^ order - 1
    the block's order    the 2 ^ order pages from idx rounded down on

Calls with ascending indices do not undo each other's marks (`Marked.freeForced`),
so after any number of them the nodes recorded free as a whole are the marked
ones.
-/
import KoeOs.Phy.BuddyRun

namespace Koe

open Node MaxTree

namespace Block

variable {b : Block}

/-- The node `n` is marked by a forced free of `b`. -/
def Marks (b : Block) (n : Node) : Prop :=
  n.order ≤ b.order ∧ b.idx >>> n.order ≤ n.idx ∧
    n.idx < (b.idx >>> n.order) + 2 ^ (b.order - n.order)

/-- The first page of the block that `b` would be if it were aligned. -/
def floor (b : Block) : ℕ := b.idx / 2 ^ b.order * 2 ^ b.order

theorem floor_le (b : Block) : b.floor ≤ b.idx := Nat.div_mul_le_self _ _

/-- Rounding down further gives less. -/
theorem floor_le_of_le {k : ℕ} (hk : k ≤ b.order) : b.floor ≤ b.idx / 2 ^ k * 2 ^ k := by
  have hp : 2 ^ b.order = 2 ^ (b.order - k) * 2 ^ k := by rw [← Nat.pow_add]; congr 1; omega
  rw [floor, hp, ← Nat.mul_assoc]
  refine Nat.mul_le_mul_right _ ?_
  rw [Nat.mul_comm (2 ^ (b.order - k)), ← Nat.div_div_eq_div_mul]
  exact Nat.div_mul_le_self _ _

/-- The end of what is marked on a level. -/
theorem shift_end {k : ℕ} (hk : k ≤ b.order) :
    (b.idx >>> k) + 2 ^ (b.order - k) = (b.idx + 2 ^ b.order) / 2 ^ k := by
  have hp : 2 ^ b.order = 2 ^ (b.order - k) * 2 ^ k := by rw [← Nat.pow_add]; congr 1; omega
  rw [Nat.shiftRight_eq_div_pow, hp, Nat.add_mul_div_right _ _ (Nat.two_pow_pos k)]

end Block

namespace BuddySystem

open ArrayForest

variable {s : BuddySystem} {bs : List Block} {b : Block} {i : ℕ}

/-- Page `i` is recorded free: it lies below a node recorded free as a whole. -/
def FrameRecorded (s : BuddySystem) (i : ℕ) : Prop := ∃ n, leaf i ≤ n ∧ RecordedFree s [] n

/-- The nodes recorded free as a whole are those that forced frees of `bs` marked. -/
structure Marked (s : BuddySystem) (bs : List Block) : Prop where
  ok : s.Ok
  bounded : ∀ n, s.map.val n ≤ Buddy.free n.order
  free_iff : ∀ n, s.map.val n = Buddy.free n.order ↔ ∃ b ∈ bs, b.Marks n

namespace Marked

theorem of_reserved (hs : s.Ok) (h : ∀ n, s.map.val n = Buddy.reserved) : Marked s [] where
  ok := hs
  bounded n := by rw [h]; exact bot_le
  free_iff n := by
    rw [h]
    exact iff_of_false (Buddy.free_ne_reserved _).symm (by simp)

theorem frameRecorded_iff (h : Marked s bs) :
    FrameRecorded s i ↔ ∃ n, leaf i ≤ n ∧ ∃ b ∈ bs, b.Marks n := by
  refine exists_congr fun n => and_congr_right fun _ => ?_
  rw [← h.free_iff, RecordedFree]
  refine ⟨fun hf => hf.2.1, fun hv => ⟨?_, hv, by simp⟩⟩
  by_contra hn
  exact Buddy.free_ne_reserved _ (hv.symm.trans (val_of_not_in hn))

/-- A call above all earlier ones marks its own nodes and keeps theirs: the
ancestors it fixes up are, on each level, right of what was marked there. -/
theorem freeForced (h : Marked s bs) (ho : b.order ≤ s.maxOrder)
    (hw : b.idx + 2 ^ b.order ≤ s.map.width 0) (hbelow : ∀ c ∈ bs, c.idx + 2 ^ c.order ≤ b.idx) :
    ∃ g, (BuddySystem.freeForced b.idx b.order).run s = .ok () { s with map := g } ∧
      s.map.Same g ∧ Marked { s with map := g } (b :: bs) := by
  obtain ⟨g, hg, hsame, hval⟩ := freeForced_run h.ok ho hw
  have hfill : ∀ n, fillBlock s.map.val b.idx b.order n ≤ Buddy.free n.order := fun n => by
    rw [fillBlock]
    split
    · exact le_rfl
    · exact h.bounded n
  have hcases := fixup_cases Buddy.strictMono_free.monotone (s.map.maxDepth - b.order)
    (n := b.node) hfill
  refine ⟨g, hg, hsame, h.ok.of_same hsame, fun n => ?_, fun n => ?_⟩
  · change g.val n ≤ _
    rw [hval]
    rcases hcases n with he | ⟨-, hle⟩
    · exact he.le.trans (hfill n)
    · exact hle.trans (Buddy.strictMono_free.monotone (Nat.sub_le _ _))
  · change g.val n = _ ↔ _
    rw [hval, List.exists_mem_cons_iff]
    rcases hcases n with he | ⟨hlt, hle⟩
    · refine (Eq.congr_left he).trans ?_
      rw [← h.free_iff n, fillBlock]
      split
      · rename_i hm
        exact iff_of_true rfl (.inl hm)
      · rename_i hm
        exact ⟨.inr, fun hor => hor.resolve_left hm⟩
    · have ho' : b.order < n.order := order_lt_of_lt hlt
      have hidx : b.idx / 2 ^ n.order = n.idx := by
        rw [← hlt.le.2, Block.node, Nat.shiftRight_eq_div_pow, Nat.div_div_eq_div_mul,
          ← Nat.pow_add]
        congr 2; simp only; omega
      have hless : Buddy.free (n.order - 1) < Buddy.free n.order :=
        Buddy.strictMono_free (by omega)
      refine iff_of_false (hle.trans_lt hless).ne ?_
      rintro (⟨hle', -⟩ | ⟨c, hc, hco, -, hlast⟩)
      · omega
      · rw [Block.shift_end hco] at hlast
        have hdiv := Nat.div_le_div_right (c := 2 ^ n.order) (hbelow c hc)
        omega

end Marked

end BuddySystem

end Koe
