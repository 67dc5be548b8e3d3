/-
# `KoeOs.Phy.BuddyRun` — whole runs of the buddy system

A buddy system is built by `new`, filled by `free_forced` on aligned blocks that
do not touch each other (`Populated`), and then driven by `reserve` and by `free`
of blocks that are out (`Run`).  A run carries two things the code does not keep:
the live blocks, and for each block handed out the state it was taken from.

`Tracks` is the invariant of a run.  It names the pool the forest stands for, and
everything the module proves about a state is read off that pool.
-/
import KoeOs.Phy.BuddyPool

namespace Koe

open Node MaxTree

namespace BuddySystem

open ArrayForest

variable {s t s₀ : BuddySystem} {P P₀ : Pool} {bs live : List Block} {b : Block} {n : Node}
  {order pageCnt : ℕ}

/-- `new`, and then `free_forced` on the blocks `bs`, the last one first. -/
inductive Populated (pageCnt : ℕ) : List Block → BuddySystem → Prop
  | new {σ : Type} {alloc : Layout → Code σ (Option ℕ)} {m m' : σ} {s : BuddySystem}
      (run : (BuddySystem.new pageCnt alloc).run m = .ok (some s) m') : Populated pageCnt [] s
  | freeForced {bs : List Block} {s t : BuddySystem} {b : Block} (before : Populated pageCnt bs s)
      (aligned : b.Aligned) (order_le : b.order ≤ s.maxOrder)
      (fits : b.idx + 2 ^ b.order ≤ pageCnt) (fresh : ∀ c ∈ bs, b.Disjoint c)
      (run : (BuddySystem.freeForced b.idx b.order).run s = .ok () t) :
      Populated pageCnt (b :: bs) t

/-- A call of `reserve` that returned a block: what was there before it. -/
structure Grant where
  before : BuddySystem
  live : List Block
  order : ℕ

/-- A run of `reserve` and of `free` on live blocks, from `s₀`. -/
inductive Run (s₀ : BuddySystem) : List Grant → List Block → BuddySystem → Prop
  | start : Run s₀ [] [] s₀
  | reserveSome {gs : List Grant} {live : List Block} {s t : BuddySystem} {order idx : ℕ}
      (before : Run s₀ gs live s) (run : (reserve order).run s = .ok (some idx) t) :
      Run s₀ (⟨s, live, order⟩ :: gs) (⟨idx, order⟩ :: live) t
  | reserveNone {gs : List Grant} {live : List Block} {s t : BuddySystem} {order : ℕ}
      (before : Run s₀ gs live s) (run : (reserve order).run s = .ok none t) : Run s₀ gs live t
  | free {gs : List Grant} {live : List Block} {s t : BuddySystem} {b : Block}
      (before : Run s₀ gs live s) (mem : b ∈ live)
      (run : (BuddySystem.free b.idx b.order).run s = .ok () t) : Run s₀ gs (live.erase b) t

/-! ## What the states record -/

/-- A node outside the live blocks that is recorded as free as a whole. -/
def RecordedFree (s : BuddySystem) (live : List Block) (n : Node) : Prop :=
  s.map.In n ∧ s.map.val n = Buddy.free n.order ∧ ∀ b ∈ live, ¬ n ≤ b.node

/-- `n` is the lowest block recorded free at `order` in the first tree whose root
records more than `order`. -/
structure Candidate (s : BuddySystem) (live : List Block) (order : ℕ) (n : Node) : Prop where
  root : ∃ r, FirstRoot s order r ∧ n ≤ s.root r ∧
    ∀ m ≤ s.root r, m.order = order → RecordedFree s live m → n.idx ≤ m.idx
  order : n.order = order
  free : RecordedFree s live n

/-- To hand out a block of `order` here means to cut a larger free block. -/
def Splits (s : BuddySystem) (live : List Block) (order : ℕ) : Prop :=
  ∃ n, Candidate s live order n ∧ RecordedFree s live n.parent

/-- `P` is the pool of `s`, and its live blocks are `live`. -/
structure Holds (s : BuddySystem) (live : List Block) (P : Pool) : Prop where
  models : Models s P
  live_iff : ∀ n, n ∈ P.live ↔ ∃ b ∈ live, b.node = n
  aligned : ∀ b ∈ live, b.Aligned
  nodup : live.Nodup

namespace Holds

theorem mem_live (h : Holds s live P) (hb : b ∈ live) : b.node ∈ P.live :=
  (h.live_iff _).mpr ⟨b, hb, rfl⟩

theorem recordedFree_iff (h : Holds s live P) : RecordedFree s live n ↔ P.Free n := by
  constructor
  · rintro ⟨hin, hv, hout⟩
    refine ⟨((h.models.val_eq_free_iff hin.1).mp hv).1, fun l hl hle => ?_⟩
    obtain ⟨b, hb, rfl⟩ := (h.live_iff l).mp hl
    exact hout b hb hle
  · intro hf
    have hin := h.models.whole n hf.1
    exact ⟨hin, (h.models.val_eq_free_iff hin.1).mpr ⟨hf.1, hf.not_live⟩, fun b hb hle =>
      hf.2 _ (h.mem_live hb) hle⟩

theorem splits_iff (h : Holds s live P) {r : ℕ} (hr : FirstRoot s order r)
    (hn : Models.Lowest P order (s.root r) n) : Splits s live order ↔ n.parent ∈ P.whole := by
  constructor
  · rintro ⟨m, ⟨⟨q, hq, hmq, hmin⟩, ho, hfree⟩, hpar⟩
    obtain rfl : q = r := by
      rcases lt_trichotomy q r with hlt | rfl | hlt
      · exact absurd hq.more (hr.first q hlt)
      · rfl
      · exact absurd hr.more (hq.first r hlt)
    have h1 := hn.first m hmq ho (h.recordedFree_iff.mp hfree)
    have h2 := hmin n hn.le hn.order (h.recordedFree_iff.mpr hn.free)
    obtain rfl : m = n := Node.ext (ho.trans hn.order.symm) (le_antisymm h2 h1)
    exact (h.recordedFree_iff.mp hpar).1
  · intro hpar
    refine ⟨n, ⟨⟨r, hr, hn.le, fun m hm ho hf => hn.first m hm ho (h.recordedFree_iff.mp hf)⟩,
      hn.order, h.recordedFree_iff.mpr hn.free⟩, h.recordedFree_iff.mpr ⟨hpar, fun l hl hle => ?_⟩⟩
    exact hn.free.2 l hl ((le_parent n).trans hle)

/-- Live blocks do not overlap. -/
theorem disjoint (h : Holds s live P) {c : Block} (hb : b ∈ live) (hc : c ∈ live) (hne : b ≠ c) :
    b.Disjoint c := fun i hbi hci => by
  have hnode : b.node ≠ c.node := fun he =>
    hne ((h.aligned b hb).node_injective (h.aligned c hc) he)
  exact Pool.live_disjoint (h.mem_live hb) (h.mem_live hc) hnode i
    ⟨(h.aligned b hb).covers_iff.mp hbi, (h.aligned c hc).covers_iff.mp hci⟩

end Holds

/-! ## One step -/

theorem Holds.freeForced (h : Holds s [] P) (hb : b.Aligned) (ho : b.order ≤ s.maxOrder)
    (hw : b.idx + 2 ^ b.order ≤ s.map.width 0)
    (hfresh : ∀ m ∈ P.whole, ¬ m ≤ b.node ∧ ¬ b.node ≤ m) :
    ∃ t, (freeForced b.idx b.order).run s = .ok () t ∧ s.map.Same t.map ∧
      t.maxOrder = s.maxOrder ∧ Holds t [] (P.add b.node hfresh) := by
  obtain ⟨g, hg, hsame, hm⟩ := h.models.freeForced_run hb ho hw hfresh
  exact ⟨_, hg, hsame, rfl, hm, h.live_iff, h.aligned, h.nodup⟩

theorem Holds.free (h : Holds s live P) (hb : b ∈ live)
    (hrun : (BuddySystem.free b.idx b.order).run s = .ok () t) :
    s.map.Same t.map ∧ t.maxOrder = s.maxOrder ∧ Holds t (live.erase b) (P.give b.node) := by
  obtain ⟨g, hg, hsame, hm⟩ := h.models.free_run (h.mem_live hb)
  cases hg.symm.trans hrun
  refine ⟨hsame, rfl, hm, fun n => ?_, fun c hc => h.aligned c (List.mem_of_mem_erase hc),
    h.nodup.erase b⟩
  rw [Pool.give_live, Set.mem_sdiff, h.live_iff, Set.mem_singleton_iff]
  constructor
  · rintro ⟨⟨c, hc, rfl⟩, hne⟩
    exact ⟨c, (h.nodup.mem_erase_iff).mpr ⟨fun he => hne (he ▸ rfl), hc⟩, rfl⟩
  · rintro ⟨c, hc, rfl⟩
    obtain ⟨hne, hc⟩ := h.nodup.mem_erase_iff.mp hc
    exact ⟨⟨c, hc, rfl⟩, fun he => hne ((h.aligned c hc).node_injective (h.aligned b hb) he)⟩

theorem Holds.reserveSome {idx : ℕ} (h : Holds s live P)
    (hrun : (reserve order).run s = .ok (some idx) t) :
    ∃ r n, ∃ hn : Models.Lowest P order (s.root r) n, FirstRoot s order r ∧
      (⟨idx, order⟩ : Block).node = n ∧ s.map.Same t.map ∧ t.maxOrder = s.maxOrder ∧
        Holds t (⟨idx, order⟩ :: live) (P.take n hn.free) := by
  rcases h.models.reserve_cases (reserve_order_le hrun) with
    ⟨-, hnone⟩ | ⟨r, n, g, hn, hr, hg, hsame, hm⟩
  · exact nomatch hnone.symm.trans hrun
  · cases hg.symm.trans hrun
    have hnode : (⟨n.idx <<< order, order⟩ : Block).node = n := by
      rw [Block.node_shiftLeft, ← hn.order]
    refine ⟨r, n, hn, hr, hnode, hsame, rfl, hm, fun m => ?_, ?_, ?_⟩
    · rw [Pool.take_live, Set.mem_insert_iff, h.live_iff, List.exists_mem_cons_iff, hnode, eq_comm]
    · rw [List.forall_mem_cons]
      exact ⟨Block.aligned_shiftLeft _ _, h.aligned⟩
    · refine List.nodup_cons.mpr ⟨fun hmem => hn.free.not_live ?_, h.nodup⟩
      exact hnode ▸ h.mem_live hmem

theorem Holds.reserveNone (h : Holds s live P) (hrun : (reserve order).run s = .ok none t) :
    t = s ∧ ∀ r < s.map.treeCnt, ¬ Buddy.free order < s.map.val (s.root r) := by
  rcases h.models.reserve_cases (reserve_order_le hrun) with ⟨hno, hnone⟩ | ⟨r, n, g, -, -, hg, -⟩
  · cases hnone.symm.trans hrun
    exact ⟨rfl, hno⟩
  · exact nomatch hg.symm.trans hrun

/-- The pages of a block that is handed out were free, and they are no longer. -/
theorem Holds.reserveSome_frames {idx : ℕ} (h : Holds s live P)
    (hrun : (reserve order).run s = .ok (some idx) t) (i : ℕ) :
    (Block.Covers ⟨idx, order⟩ i → RecordedFree s live (leaf i)) ∧
      (RecordedFree t (⟨idx, order⟩ :: live) (leaf i) ↔
        RecordedFree s live (leaf i) ∧ ¬ Block.Covers ⟨idx, order⟩ i) := by
  obtain ⟨r, n, hn, -, hnode, -, -, hh⟩ := h.reserveSome hrun
  have hal : Block.Aligned ⟨idx, order⟩ := hh.aligned _ List.mem_cons_self
  rw [hh.recordedFree_iff, h.recordedFree_iff, Pool.take_free_leaf, hal.covers_iff, hnode]
  exact ⟨fun hle => hn.free.mono hle, Iff.rfl⟩

/-- The pages of a block that is freed become free, and no others. -/
theorem Holds.free_frames (h : Holds s live P) (hb : b ∈ live)
    (hrun : (BuddySystem.free b.idx b.order).run s = .ok () t) (i : ℕ) :
    RecordedFree t (live.erase b) (leaf i) ↔ RecordedFree s live (leaf i) ∨ b.Covers i := by
  obtain ⟨-, -, hh⟩ := h.free hb hrun
  rw [hh.recordedFree_iff, h.recordedFree_iff, Pool.give_free_leaf (h.mem_live hb),
    (h.aligned b hb).covers_iff]

/-- A live block can be freed. -/
theorem Holds.free_ok (h : Holds s live P) (hb : b ∈ live) :
    ∃ t, (BuddySystem.free b.idx b.order).run s = .ok () t := by
  obtain ⟨g, hg, -⟩ := h.models.free_run (h.mem_live hb)
  exact ⟨_, hg⟩

/-! ## Runs -/

theorem Populated.fits (h : Populated pageCnt bs s) : ∀ b ∈ bs, b.idx + 2 ^ b.order ≤ pageCnt := by
  induction h with
  | new _ => simp
  | freeForced _ _ _ fits _ _ ih => exact List.forall_mem_cons.mpr ⟨fits, ih⟩

/-- What population leaves: nothing but the blocks it was given. -/
structure Filled (pageCnt : ℕ) (bs : List Block) (s : BuddySystem) (P : Pool) : Prop where
  holds : Holds s [] P
  room : pageCnt ≤ s.map.width 0
  aligned : ∀ b ∈ bs, b.Aligned
  whole_iff : ∀ n, n ∈ P.whole ↔ ∃ b ∈ bs, n ≤ b.node

theorem Filled.of_reserved (hok : s.Ok) (hroom : pageCnt ≤ s.map.width 0)
    (hval : ∀ n, s.map.val n = Buddy.reserved) : Filled pageCnt [] s Pool.empty := by
  refine ⟨⟨.of_reserved hok hval, fun n => ?_, ?_, List.nodup_nil⟩, hroom, ?_, fun n => ?_⟩ <;> simp

/-- A block that touches none of those before it. -/
theorem Filled.freeForced (h : Filled pageCnt bs s P) (hb : b.Aligned) (ho : b.order ≤ s.maxOrder)
    (hfits : b.idx + 2 ^ b.order ≤ pageCnt) (hfresh : ∀ c ∈ bs, b.Disjoint c) :
    ∃ t Q, (BuddySystem.freeForced b.idx b.order).run s = .ok () t ∧ s.map.Same t.map ∧
      t.maxOrder = s.maxOrder ∧ Filled pageCnt (b :: bs) t Q := by
  have houter : ∀ m ∈ P.whole, ¬ m ≤ b.node ∧ ¬ b.node ≤ m := by
    intro m hm
    obtain ⟨c, hc, hmc⟩ := (h.whole_iff m).mp hm
    have hbc := (hfresh c hc).not_le hb (h.aligned c hc)
    have hcb := (hfresh c hc).symm.not_le (h.aligned c hc) hb
    refine ⟨fun hle => ?_, fun hle => hbc (hle.trans hmc)⟩
    rcases le_total_above hle hmc with h | h
    · exact hbc h
    · exact hcb h
  obtain ⟨t, hrun, hsame, hmax, hh⟩ := h.holds.freeForced hb ho (hfits.trans h.room) houter
  refine ⟨t, _, hrun, hsame, hmax, hh, by rw [hsame.width]; exact h.room, ?_, fun n => ?_⟩
  · rw [List.forall_mem_cons]
    exact ⟨hb, h.aligned⟩
  · rw [Pool.mem_add_whole, h.whole_iff, List.exists_mem_cons_iff, or_comm]

/-- A populated system holds a pool, unless it has no buffer at all. -/
theorem Populated.filled (h : Populated pageCnt bs s) :
    (2 ^ 62 < pageCnt ∧ s.Hollow ∧ bs = []) ∨ ∃ P, Filled pageCnt bs s P := by
  induction h with
  | new run =>
      rcases (new_run run).2 with ⟨hbig, hh⟩ | ⟨-, hok, hroom, hval⟩
      · exact .inl ⟨by omega, hh, rfl⟩
      · exact .inr ⟨_, .of_reserved hok hroom hval⟩
  | freeForced before aligned order_le fits fresh run ih =>
      rcases ih with ⟨-, hh, -⟩ | ⟨P, hP⟩
      · exact absurd run hh.not_freeForced
      · obtain ⟨t, Q, hrun, -, -, hQ⟩ := hP.freeForced aligned order_le fits fresh
        cases hrun.symm.trans run
        exact .inr ⟨Q, hQ⟩

/-- The invariant of a run from a system that holds `P₀`: besides what each state
holds, blocks are only ever split, single pages never, and `gs` tells whether
one was. -/
structure Tracks (s₀ : BuddySystem) (P₀ : Pool) (gs : List Grant) (live : List Block)
    (s : BuddySystem) (P : Pool) : Prop where
  holds : Holds s live P
  same : s₀.map.Same s.map
  maxOrder : s.maxOrder = s₀.maxOrder
  whole_le : P.whole ≤ P₀.whole
  leaf_mem : ∀ i, leaf i ∈ P₀.whole → leaf i ∈ P.whole
  whole_eq_iff : P.whole = P₀.whole ↔ ∀ g ∈ gs, ¬ Splits g.before g.live g.order

theorem Run.tracks {gs : List Grant} (h₀ : Holds s₀ [] P₀) (h : Run s₀ gs live s) :
    ∃ P, Tracks s₀ P₀ gs live s P := by
  induction h with
  | start => exact ⟨P₀, h₀, .refl h₀.models.ok.map, rfl, le_rfl, fun _ h => h, by simp⟩
  | @reserveSome gs live s t order idx _ run ih =>
      obtain ⟨P, hP⟩ := ih
      obtain ⟨r, n, hn, hr, -, hsame, hmax, hh⟩ := hP.holds.reserveSome run
      have hle : (P.take n hn.free).whole ≤ P.whole := Pool.take_whole_le
      have hcut : (P.take n hn.free).whole = P.whole ↔ n.parent ∉ P.whole := Pool.take_whole_eq_iff
      refine ⟨_, hh, hP.same.trans h₀.models.ok.map hsame, hmax.trans hP.maxOrder,
        hle.trans hP.whole_le, fun i hi => ⟨hP.leaf_mem i hi, not_lt_leaf⟩, ?_⟩
      -- the new `whole` lies below the old one, which lies below the first
      rw [List.forall_mem_cons, ← hP.whole_eq_iff, hP.holds.splits_iff hr hn, ← hcut]
      constructor
      · intro he
        have hmid : P.whole = P₀.whole := le_antisymm hP.whole_le (he ▸ hle)
        exact ⟨he.trans hmid.symm, hmid⟩
      · rintro ⟨h1, h2⟩; exact h1.trans h2
  | reserveNone _ run ih =>
      obtain ⟨P, hP⟩ := ih
      obtain ⟨rfl, -⟩ := hP.holds.reserveNone run
      exact ⟨P, hP⟩
  | free _ mem run ih =>
      obtain ⟨P, hP⟩ := ih
      obtain ⟨hsame, hmax, hh⟩ := hP.holds.free mem run
      exact ⟨_, hh, hP.same.trans h₀.models.ok.map hsame, hmax.trans hP.maxOrder, hP.whole_le,
        hP.leaf_mem, hP.whole_eq_iff⟩

/-- A live block lies inside the blocks the system was populated with. -/
theorem Tracks.covered {gs : List Grant} (h : Tracks s₀ P₀ gs live s P)
    (h₀ : Filled pageCnt bs s₀ P₀) (hb : b ∈ live) {i : ℕ} (hi : b.Covers i) :
    ∃ c ∈ bs, c.Covers i := by
  have hw : b.node ∈ P₀.whole := h.whole_le (P.live_whole _ (h.holds.mem_live hb))
  obtain ⟨c, hc, hle⟩ := (h₀.whole_iff _).mp hw
  have hleaf := (h.holds.aligned b hb).covers_iff.mp hi
  exact ⟨c, hc, (h₀.aligned c hc).covers_iff.mpr (hleaf.trans hle)⟩

/-- From a system without a buffer there is no step. -/
theorem Run.of_hollow {gs : List Grant} (h₀ : s₀.Hollow) (h : Run s₀ gs live s) :
    gs = [] ∧ live = [] ∧ s = s₀ := by
  induction h with
  | start => exact ⟨rfl, rfl, rfl⟩
  | reserveSome _ run ih =>
      obtain ⟨-, -, rfl⟩ := ih
      exact absurd run h₀.not_reserve
  | reserveNone _ run ih =>
      obtain ⟨-, -, rfl⟩ := ih
      exact absurd run h₀.not_reserve
  | free _ mem _ ih =>
      obtain ⟨-, rfl, -⟩ := ih
      exact absurd mem List.not_mem_nil

/-- A state reached from a populated system holds a pool that lies inside the
blocks it was populated with, unless there is no buffer and nothing happened. -/
theorem Run.reaches {gs : List Grant} (hp : Populated pageCnt bs s₀) (h : Run s₀ gs live s) :
    (s₀.Hollow ∧ gs = [] ∧ live = [] ∧ s = s₀) ∨
      ∃ P₀ P, Filled pageCnt bs s₀ P₀ ∧ Tracks s₀ P₀ gs live s P := by
  rcases hp.filled with ⟨-, hh, -⟩ | ⟨P₀, hP₀⟩
  · exact .inl ⟨hh, h.of_hollow hh⟩
  · obtain ⟨P, hP⟩ := h.tracks hP₀.holds
    exact .inr ⟨P₀, P, hP₀, hP⟩

/-- A system over four pages, by the bytes of its forest. -/
def fourPages (bytes : List ℕ) : BuddySystem := ⟨⟨bytes.map Buddy.mk, 0, 3, 1⟩, 2⟩

theorem fourPages_new : Populated 4 [] (fourPages [0, 0, 0, 0, 0, 0, 0, 0]) := by
  have h : (BuddySystem.new 4 fun _ => (pure (some 0) : Code Unit (Option ℕ))).run ()
      = .ok (some (fourPages [0, 0, 0, 0, 0, 0, 0, 0])) () := by decide
  exact .new h

theorem fourPages_free : Populated 4 [⟨0, 2⟩] (fourPages [3, 2, 2, 1, 1, 1, 1, 0]) :=
  .freeForced fourPages_new (by decide) (by decide) (by decide) (by simp) (by decide)

/-- Two pages taken from four. -/
theorem fourPages_run : ∃ gs, Run (fourPages [3, 2, 2, 1, 1, 1, 1, 0]) gs [⟨1, 0⟩, ⟨0, 0⟩]
    (fourPages [2, 0, 2, 0, 0, 1, 1, 0]) := by
  have h : Run (fourPages [3, 2, 2, 1, 1, 1, 1, 0]) _ [⟨0, 0⟩]
      (fourPages [2, 1, 2, 0, 1, 1, 1, 0]) :=
    .reserveSome .start (by decide)
  exact ⟨_, .reserveSome h (by decide)⟩

/-! ## Safety -/

/-- In every state of every run the live blocks are disjoint, aligned and inside
the blocks the system was populated with, and each of them can be freed. -/
theorem live_blocks_safe {gs : List Grant} (hp : Populated pageCnt bs s₀)
    (hr : Run s₀ gs live s) :
    live.Pairwise Block.Disjoint ∧
      (∀ b ∈ live, b.Aligned ∧ ∀ i, b.Covers i → ∃ c ∈ bs, c.Covers i) ∧
      ∀ b ∈ live, ∃ t, (free b.idx b.order).run s = .ok () t := by
  rcases hr.reaches hp with ⟨-, -, rfl, -⟩ | ⟨P₀, P, hP₀, hP⟩
  · simp
  · exact ⟨hP.holds.nodup.pairwise_of_forall_ne fun b hb c hc => hP.holds.disjoint hb hc,
      fun b hb => ⟨hP.holds.aligned b hb, fun i => hP.covered hP₀ hb⟩,
      fun b hb => hP.holds.free_ok hb⟩

theorem live_blocks_safe_fourPages : ∃ s₀ gs s, Populated 4 [⟨0, 2⟩] s₀ ∧
    Run s₀ gs [⟨1, 0⟩, ⟨0, 0⟩] s ∧ Block.Disjoint ⟨1, 0⟩ ⟨0, 0⟩ := by
  obtain ⟨gs, hr⟩ := fourPages_run
  have hdisj := (live_blocks_safe fourPages_free hr).1
  exact ⟨_, gs, _, fourPages_free, hr,
    (List.pairwise_cons.mp hdisj).1 _ (List.mem_singleton_self _)⟩

/-! ## The max tree -/

/-- What a node may record: it is a live block, or free with everything below it,
or the maximum of its children. -/
def Recorded (s : BuddySystem) (live : List Block) (n : Node) : Prop :=
  ((∃ b ∈ live, b.node = n) ∧ s.map.val n = Buddy.reserved) ∨
  (∀ m ≤ n, s.map.val m = Buddy.free m.order) ∨
  (0 < n.order ∧ s.map.val n = max (s.map.val n.left) (s.map.val n.right)) ∨
  (n.order = 0 ∧ s.map.val n = Buddy.reserved)

theorem Hollow.not_recordedFree (h : s.Hollow) : ¬ RecordedFree s live n := fun hf =>
  Buddy.free_ne_reserved _ (hf.2.1.symm.trans (h.val n))

theorem Hollow.recorded (h : s.Hollow) (n : Node) : Recorded s live n := by
  rcases Nat.eq_zero_or_pos n.order with h0 | hpos
  · exact .inr (.inr (.inr ⟨h0, h.val n⟩))
  · exact .inr (.inr (.inl ⟨hpos, by rw [h.val, h.val, h.val, max_self]⟩))

theorem Holds.recorded (h : Holds s live P) (hin : s.map.In n) (hout : ∀ b ∈ live, ¬ n < b.node) :
    Recorded s live n := by
  by_cases hl : n ∈ P.live
  · refine .inl ⟨(h.live_iff n).mp hl, ?_⟩
    rw [h.models.val n hin.1]; exact Pool.value_of_live hl
  · by_cases hw : n ∈ P.whole
    · have hfree : P.Free n := Pool.free_of_whole hw hl fun l hll => by
        obtain ⟨b, hb, rfl⟩ := (h.live_iff l).mp hll
        exact hout b hb
      refine .inr (.inl fun m hm => ?_)
      exact (h.recordedFree_iff.mpr (hfree.mono hm)).2.1
    · rcases Nat.eq_zero_or_pos n.order with h0 | hpos
      · refine .inr (.inr (.inr ⟨h0, ?_⟩))
        rw [h.models.val n hin.1]; exact Pool.value_of_leaf hw h0
      · refine .inr (.inr (.inl ⟨hpos, ?_⟩))
        have hle : n.order - 1 ≤ s.map.maxDepth := (Nat.sub_le _ _).trans hin.1
        rw [h.models.val n hin.1, h.models.val n.left hle, h.models.val n.right hle]
        exact Pool.value_of_split hw hpos

theorem Holds.free_le_root_iff (h : Holds s live P) {k r : ℕ} :
    Buddy.free k ≤ s.map.val (s.root r) ↔ ∃ m ≤ s.root r, m.order = k ∧ RecordedFree s live m := by
  simp only [h.models.free_le_root_iff, h.recordedFree_iff]

/-- In every state of every run the nodes that are not inside a live block form a
max tree, and each root records the largest order that is free in its tree. -/
theorem forest_is_max_tree {gs : List Grant} (hp : Populated pageCnt bs s₀)
    (hr : Run s₀ gs live s) :
    (∀ n, s.map.In n → (∀ b ∈ live, ¬ n < b.node) → Recorded s live n) ∧
      ∀ r < s.map.treeCnt,
        (s.map.val (s.root r) = Buddy.reserved ∧ ∀ m ≤ s.root r, ¬ RecordedFree s live m) ∨
        ∃ k, s.map.val (s.root r) = Buddy.free k ∧
          (∃ m ≤ s.root r, m.order = k ∧ RecordedFree s live m) ∧
          ∀ m ≤ s.root r, RecordedFree s live m → m.order ≤ k := by
  rcases hr.reaches hp with ⟨hh, -, rfl, rfl⟩ | ⟨P₀, P, -, hP⟩
  · exact ⟨fun n _ _ => hh.recorded n, fun r _ => .inl ⟨hh.val _, fun m _ => hh.not_recordedFree⟩⟩
  · refine ⟨fun n hin hout => hP.holds.recorded hin hout, fun r _ => ?_⟩
    have hroot : ∀ m ≤ s.root r, RecordedFree s live m →
        Buddy.free m.order ≤ s.map.val (s.root r) :=
      fun m hm hf => hP.holds.free_le_root_iff.mpr ⟨m, hm, rfl, hf⟩
    cases hv : (s.map.val (s.root r)).val with
    | zero =>
        refine .inl ⟨Buddy.ext hv, fun m hm hf => ?_⟩
        have := Buddy.free_le_iff.mp (hroot m hm hf)
        omega
    | succ k =>
        have hfree : s.map.val (s.root r) = Buddy.free k := Buddy.ext hv
        refine .inr ⟨k, hfree, hP.holds.free_le_root_iff.mp hfree.ge, fun m hm hf => ?_⟩
        exact Buddy.strictMono_free.le_iff_le.mp (hfree ▸ hroot m hm hf)

theorem forest_is_max_tree_fourPages : ∃ s₀ gs live s, Populated 4 [⟨0, 2⟩] s₀ ∧
    Run s₀ gs live s ∧ s.map.val ⟨1, 0⟩ = Buddy.reserved ∧ Recorded s live ⟨1, 0⟩ := by
  obtain ⟨gs, hr⟩ := fourPages_run
  exact ⟨_, gs, _, _, fourPages_free, hr, by decide,
    (forest_is_max_tree fourPages_free hr).1 ⟨1, 0⟩ (by decide) (by
      simp only [List.forall_mem_cons]
      exact ⟨fun h => absurd (order_lt_of_lt h) (by decide),
        fun h => absurd (order_lt_of_lt h) (by decide), by simp⟩)⟩

/-! ## Completeness -/

/-- A block recorded free shows in the root of its tree, at every order up to its own. -/
theorem Holds.exists_root (h : Holds s live P) (hf : RecordedFree s live n)
    (ho : order ≤ n.order) : ∃ r < s.map.treeCnt, Buddy.free order ≤ s.map.val (s.root r) := by
  obtain ⟨r, hr, hle⟩ := hf.1.exists_root
  obtain ⟨m, hm, hmo⟩ := exists_le_of_order ho
  have hfree := (h.recordedFree_iff.mp hf).mono hm
  exact ⟨r, hr, h.models.free_le_root_iff.mpr ⟨m, hm.trans hle, hmo, hfree⟩⟩

/-- `reserve` misses a block exactly when the largest order any root records is
the order that is asked for. -/
theorem reserve_complete_iff {gs : List Grant} (hp : Populated pageCnt bs s₀)
    (hr : Run s₀ gs live s) (ho : order ≤ s.maxOrder) :
    (∀ t, (reserve order).run s = .ok none t →
        ∀ n, RecordedFree s live n → ¬ order ≤ n.order) ↔
      ¬ ((∃ r < s.map.treeCnt, s.map.val (s.root r) = Buddy.free order) ∧
        ∀ r < s.map.treeCnt, s.map.val (s.root r) ≤ Buddy.free order) := by
  rcases hr.reaches hp with ⟨hh, -, rfl, rfl⟩ | ⟨P₀, P, -, hP⟩
  · refine iff_of_true (fun t ht => absurd ht hh.not_reserve) ?_
    rintro ⟨⟨r, -, hv⟩, -⟩
    exact Buddy.free_ne_reserved _ (hv.symm.trans (hh.val _))
  · constructor
    · rintro hsound ⟨⟨r, -, hv⟩, hall⟩
      have hnone := reserve_none hP.holds.models.ok ho fun q hq => not_lt.mpr (hall q hq)
      obtain ⟨m, -, hmo, hf⟩ := hP.holds.free_le_root_iff.mp hv.ge
      exact hsound s hnone m hf hmo.ge
    · intro hexact t ht n hf hle
      obtain ⟨-, hno⟩ := hP.holds.reserveNone ht
      obtain ⟨r, hr, hge⟩ := hP.holds.exists_root hf hle
      exact hexact ⟨⟨r, hr, le_antisymm (not_lt.mp (hno r hr)) hge⟩,
        fun q hq => not_lt.mp (hno q hq)⟩

/-- Two pages of four are out, and there is no block of four pages. -/
theorem reserve_complete_fourPages : ∃ s₀ gs live s, Populated 4 [⟨0, 2⟩] s₀ ∧
    Run s₀ gs live s ∧ (reserve 2).run s = .ok none s ∧
    ∀ n, RecordedFree s live n → ¬ 2 ≤ n.order := by
  obtain ⟨gs, hr⟩ := fourPages_run
  have hnone : (reserve 2).run (fourPages [2, 0, 2, 0, 0, 1, 1, 0])
      = .ok none (fourPages [2, 0, 2, 0, 0, 1, 1, 0]) := by decide
  exact ⟨_, gs, _, _, fourPages_free, hr, hnone,
    (reserve_complete_iff fourPages_free hr (by decide)).mpr (by decide) _ hnone⟩

/-- Four pages in one block, and no block of four pages to be had. -/
theorem reserve_misses_block : ∃ s, Populated 4 [⟨0, 2⟩] s ∧ Run s [] [] s ∧ 2 ≤ s.maxOrder ∧
    (reserve 2).run s = .ok none s ∧ RecordedFree s [] ⟨2, 0⟩ :=
  ⟨_, fourPages_free, .start, by decide, by decide, by decide, by decide, by simp⟩

/-! ## Capacity -/

/-- With nothing live, the forest tells which blocks are whole. -/
theorem Holds.whole_eq (h₀ : Holds s₀ [] P₀) (h : Holds s [] P) (hmap : s.map = s₀.map) :
    P.whole = P₀.whole := by
  have hlive : ∀ {t : BuddySystem} {Q : Pool}, Holds t [] Q → ∀ m, m ∉ Q.live := fun hQ m hm => by
    obtain ⟨b, hb, -⟩ := (hQ.live_iff m).mp hm
    exact absurd hb List.not_mem_nil
  have hiff : ∀ {t : BuddySystem} {Q : Pool}, Holds t [] Q → ∀ m,
      m ∈ Q.whole ↔ t.map.In m ∧ t.map.val m = Buddy.free m.order := fun hQ m =>
    ⟨fun hm => ⟨hQ.models.whole m hm,
      (hQ.models.val_eq_free_iff (hQ.models.whole m hm).1).mpr ⟨hm, hlive hQ m⟩⟩,
      fun ⟨hin, hv⟩ => ((hQ.models.val_eq_free_iff hin.1).mp hv).1⟩
  ext m
  exact ((hiff h m).trans (by rw [hmap])).trans (hiff h₀ m).symm

/-- After a run that gave everything back the forest is the one it was exactly
when no block was cut on the way. -/
theorem run_restores_iff {gs : List Grant} (hp : Populated pageCnt bs s₀)
    (hr : Run s₀ gs [] s) :
    (s.map = s₀.map ∧ ∀ order idx t, (reserve order).run s₀ = .ok (some idx) t →
        ∃ idx t, (reserve order).run s = .ok (some idx) t) ↔
      ∀ g ∈ gs, ¬ Splits g.before g.live g.order := by
  rcases hr.reaches hp with ⟨-, rfl, -, rfl⟩ | ⟨P₀, P, hP₀, hP⟩
  · simp only [List.not_mem_nil, false_implies, implies_true, iff_true]
    exact ⟨trivial, fun order idx t h => ⟨idx, t, h⟩⟩
  · rw [← hP.whole_eq_iff]
    constructor
    · rintro ⟨hmap, -⟩
      exact hP₀.holds.whole_eq hP.holds hmap
    · intro hwhole
      have hpool : Models s P₀ := hP.holds.models.congr (fun n => by rw [hwhole]) fun n => by
        rw [hP.holds.live_iff, hP₀.holds.live_iff]
      have hmap := hP₀.holds.models.map_eq hpool hP.same
      have hs : s = s₀ := by
        cases s; cases s₀
        exact congrArg₂ BuddySystem.mk hmap hP.maxOrder
      exact ⟨hmap, fun order idx t h => ⟨idx, t, hs ▸ h⟩⟩

/-- Page 0 and pages 2, 3 of four: page 0 is no part of a larger free block. -/
theorem run_restores_fourPages : ∃ s₀ gs s, Populated 4 [⟨2, 1⟩, ⟨0, 0⟩] s₀ ∧ Run s₀ gs [] s ∧
    gs ≠ [] ∧ ∀ g ∈ gs, ¬ Splits g.before g.live g.order := by
  have h1 : Populated 4 [⟨0, 0⟩] (fourPages [1, 1, 0, 1, 0, 0, 0, 0]) :=
    .freeForced fourPages_new (by decide) (by decide) (by decide) (by simp) (by decide)
  have h2 : Populated 4 [⟨2, 1⟩, ⟨0, 0⟩] (fourPages [2, 1, 2, 1, 0, 1, 1, 0]) := by
    refine .freeForced h1 (by decide) (by decide) (by decide) ?_ (by decide)
    simp only [List.mem_singleton, forall_eq, Block.Disjoint, Block.Covers]
    omega
  have hr : Run (fourPages [2, 1, 2, 1, 0, 1, 1, 0]) _ [⟨0, 0⟩]
      (fourPages [2, 0, 2, 0, 0, 1, 1, 0]) :=
    .reserveSome .start (by decide)
  have hr' : Run (fourPages [2, 1, 2, 1, 0, 1, 1, 0]) _ [] (fourPages [2, 1, 2, 1, 0, 1, 1, 0]) :=
    .free hr (List.mem_singleton_self _) (by decide)
  exact ⟨_, _, _, h2, hr', List.cons_ne_nil _ _,
    (run_restores_iff h2 hr').mp ⟨rfl, fun order idx t h => ⟨idx, t, h⟩⟩⟩

/-- Two pages taken from four and given back: the two halves stay apart, and a
block of two pages can no longer be had. -/
theorem run_loses_capacity : ∃ s₀ gs s, Populated 4 [⟨0, 2⟩] s₀ ∧ Run s₀ gs [] s ∧
    s.map ≠ s₀.map ∧ (∃ idx t, (reserve 1).run s₀ = .ok (some idx) t) ∧
      (reserve 1).run s = .ok none s := by
  have hres : (reserve 1).run (fourPages [3, 2, 2, 1, 1, 1, 1, 0])
      = .ok (some 0) (fourPages [2, 0, 2, 1, 1, 1, 1, 0]) := by decide
  have hfree : Run (fourPages [3, 2, 2, 1, 1, 1, 1, 0]) _ [] (fourPages [2, 2, 2, 1, 1, 1, 1, 0]) :=
    .free (.reserveSome .start hres) (List.mem_singleton_self _) (by decide)
  exact ⟨_, _, _, fourPages_free, hfree, by decide, ⟨0, _, hres⟩, by decide⟩

/-! ## The search -/

/-- The search below the root that was selected ends, and ends in a block. -/
def SearchEnds (s : BuddySystem) (order : ℕ) : Prop :=
  ∀ roots f root, (slice 0).run s.map = .ok roots f →
    roots.findIdx? (holdsMore order) = some root →
      ∃ top found g g', (cursor 0 root).run f = .ok top g ∧
        (search order (2 ^ g.treeDepth) (some top) []).run g = .ok (some found) g'

/-- A call of `reserve` that returns has found a block below the root it selected, if there was
one. -/
theorem searchEnds_of_reserve {r : Option ℕ} (h : (reserve order).run s = .ok r t) :
    SearchEnds s order := by
  intro roots f root hslice hroot
  unfold reserve at h
  rw [Code.get_bind] at h
  obtain ⟨_, s', ha, hmap⟩ := Code.bind_eq_ok.mp h
  rw [← (Code.assert_eq_ok.mp ha).2] at hmap
  obtain ⟨_, hg, -⟩ := Code.zoom_eq_ok.mp hmap
  rw [Code.bind_ok hslice, hroot] at hg
  obtain ⟨top, g, htop, hg⟩ := Code.bind_eq_ok.mp hg
  rw [Code.get_bind] at hg
  obtain ⟨found, g', hsearch, hg⟩ := Code.bind_eq_ok.mp hg
  cases found with
  | none => exact nomatch hg
  | some found => exact ⟨top, found, g, g', htop, hsearch⟩

theorem Models.reserve_ok (h : Models s P) (ho : order ≤ s.maxOrder) :
    ∃ r t, (reserve order).run s = .ok r t := by
  rcases h.reserve_cases ho with ⟨-, hnone⟩ | ⟨_, _, _, _, _, hsome, -⟩
  · exact ⟨_, _, hnone⟩
  · exact ⟨_, _, hsome⟩

/-- In every state of every run and at every order, the search of `reserve` ends in a block as
soon as there is a root to begin at: it does not run on, its stack does not overflow, it does
not fall off the leaves, reads no order off a reserved node and does not come back empty.  The
whole call returns, unless the forest is so large that its roots cannot be read. -/
theorem search_ends_in_block {gs : List Grant} (hp : Populated pageCnt bs s₀)
    (hr : Run s₀ gs live s) (ho : order ≤ s.maxOrder) :
    SearchEnds s order ∧ ((∃ r t, (reserve order).run s = .ok r t) ∨
      2 ^ 62 < pageCnt ∧ ∀ roots f, (slice 0).run s.map ≠ .ok roots f) := by
  rcases hp.filled with ⟨hbig, hh, -⟩ | ⟨P₀, hP₀⟩
  · obtain ⟨-, -, rfl⟩ := hr.of_hollow hh
    exact ⟨fun roots f root hslice => absurd hslice hh.not_slice,
      .inr ⟨hbig, fun roots f => hh.not_slice⟩⟩
  · obtain ⟨P, hP⟩ := hr.tracks hP₀.holds
    obtain ⟨r, t, hrun⟩ := hP.holds.models.reserve_ok ho
    exact ⟨searchEnds_of_reserve hrun, .inl ⟨r, t, hrun⟩⟩

/-- One page of four, with the left half taken: the search rewinds to the right half. -/
theorem search_ends_fourPages : ∃ s₀ gs live s, Populated 4 [⟨0, 2⟩] s₀ ∧ Run s₀ gs live s ∧
    SearchEnds s 0 := by
  obtain ⟨gs, hr⟩ := fourPages_run
  exact ⟨_, gs, _, _, fourPages_free, hr, (search_ends_in_block fourPages_free hr (by decide)).1⟩

end BuddySystem

end Koe
