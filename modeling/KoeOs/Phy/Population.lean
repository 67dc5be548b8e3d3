/-
# `KoeOs.Phy.Population` — filling a new buddy system

`free_forced` overwrites a subtree and repairs one path above it.  On disjoint
aligned blocks the order of the calls leaves no trace: after each call the forest
holds the pool of the blocks so far (`Filled`), and a pool is a set of blocks.

The second half drops all that: any calls on any blocks of the system's pages,
overlapping, freed twice or never handed out.  Two facts survive (`Within`):

    a node records at most its own order
    a node recorded free as a whole lies inside the pages

and they are enough for the forest to be large enough.  It is, for every number
of pages but the largest ones that `new` accepts.  There `tree_cnt << tree_depth`
leaves the machine word, and the buffer is empty.
-/
import KoeOs.Phy.BuddyRun
import Mathlib.Logic.Relation

namespace Koe

open Node MaxTree

/-- A block of the first `pageCnt` pages, as `aligned_split` is asked for. -/
structure Block.Fits (pageCnt : ℕ) (b : Block) : Prop where
  aligned : b.Aligned
  order_le : b.order ≤ buddyMaxOrder
  inside : b.idx + 2 ^ b.order ≤ pageCnt

namespace BuddySystem

open ArrayForest

variable {s t : BuddySystem} {P Q : Pool} {bs cs : List Block} {b : Block} {n : Node}
  {order pageCnt : ℕ}

/-- A block of the pages is no larger than a tree. -/
theorem order_le_of_fits (h : s.maxOrder = min (Usize.ceilLog2 pageCnt) buddyMaxOrder)
    (hb : b.Fits pageCnt) : b.order ≤ s.maxOrder := by
  rw [h]
  exact le_min (Usize.le_ceilLog2 (by have := hb.inside; omega)) hb.order_le

/-! ## Any order -/

/-- `free_forced` on one block after the other. -/
def populate (bs : List Block) : Code BuddySystem Unit := bs.forM fun b => freeForced b.idx b.order

theorem populate_cons (b : Block) (bs : List Block) :
    populate (b :: bs) = freeForced b.idx b.order >>= fun _ => populate bs := by
  rw [populate, List.forM_eq_forM, List.forM_cons]
  rfl

/-- The forest after `bs`: a node is free as a whole exactly if its pages lie in one of the
blocks, and otherwise the maximum of its children. -/
structure Shows (t : BuddySystem) (bs : List Block) : Prop where
  free_iff : ∀ n, t.map.In n →
    (t.map.val n = Buddy.free n.order ↔ ∃ b ∈ bs, ∀ i, leaf i ≤ n → b.Covers i)
  split : ∀ n, t.map.In n → t.map.val n ≠ Buddy.free n.order → 0 < n.order →
    t.map.val n = max (t.map.val n.left) (t.map.val n.right)
  reserved : ∀ n, t.map.In n → t.map.val n ≠ Buddy.free n.order → n.order = 0 →
    t.map.val n = Buddy.reserved

namespace Filled

theorem mono (h : Filled pageCnt bs s P) (hmem : ∀ b, b ∈ bs ↔ b ∈ cs) : Filled pageCnt cs s P where
  holds := h.holds
  room := h.room
  aligned b hb := h.aligned b ((hmem b).mpr hb)
  whole_iff n := by simp only [h.whole_iff, hmem]

theorem populate (hmax : s.maxOrder = min (Usize.ceilLog2 pageCnt) buddyMaxOrder)
    (h : Filled pageCnt bs s P) (hfits : ∀ b ∈ cs, b.Fits pageCnt)
    (hdis : cs.Pairwise Block.Disjoint) (hfresh : ∀ c ∈ cs, ∀ b ∈ bs, c.Disjoint b) :
    ∃ t Q, (BuddySystem.populate cs).run s = .ok () t ∧ s.map.Same t.map ∧
      t.maxOrder = s.maxOrder ∧ Filled pageCnt (cs ++ bs) t Q := by
  induction cs generalizing s bs P with
  | nil => exact ⟨s, P, rfl, .refl h.holds.models.ok.map, rfl, h⟩
  | cons c cs ih =>
      obtain ⟨hc, hfits⟩ := List.forall_mem_cons.mp hfits
      obtain ⟨hhead, hdis⟩ := List.pairwise_cons.mp hdis
      obtain ⟨hcfresh, hfresh⟩ := List.forall_mem_cons.mp hfresh
      obtain ⟨u, R, hrun, hsame, hord, hu⟩ := h.freeForced hc.aligned (order_le_of_fits hmax hc)
        hc.inside hcfresh
      obtain ⟨t, Q, hrun', hsame', hord', ht⟩ := ih (hord.trans hmax) hu hfits hdis
        fun d hd => List.forall_mem_cons.mpr ⟨(hhead d hd).symm, hfresh d hd⟩
      refine ⟨t, Q, ?_, hsame.trans h.holds.models.ok.map hsame', hord'.trans hord,
        ht.mono fun b => ?_⟩
      · rw [populate_cons, Code.bind_ok hrun]
        exact hrun'
      · simp only [List.mem_append, List.mem_cons]
        tauto

/-- Two systems filled with the same blocks are the same. -/
theorem eq (hs : s.Ok) {t' : BuddySystem} (h : Filled pageCnt bs t P) (h' : Filled pageCnt bs t' Q)
    (hsame : s.map.Same t.map) (hsame' : s.map.Same t'.map) (hord : t'.maxOrder = t.maxOrder) :
    t' = t := by
  have hmodels : Models t' P := h'.holds.models.congr
    (fun n => (h'.whole_iff n).trans (h.whole_iff n).symm)
    fun n => (h'.holds.live_iff n).trans (h.holds.live_iff n).symm
  have hmap := h.holds.models.map_eq hmodels (hsame.join hs.map hsame')
  cases t; cases t'
  exact congrArg₂ BuddySystem.mk hmap hord

theorem shows (h : Filled pageCnt bs t P) : t.Shows bs := by
  have hlive : ∀ n, n ∉ P.live := fun n hn => by
    obtain ⟨b, hb, -⟩ := (h.holds.live_iff n).mp hn
    exact absurd hb List.not_mem_nil
  have hfree : ∀ n, t.map.In n → (t.map.val n = Buddy.free n.order ↔ n ∈ P.whole) := fun n hn => by
    rw [h.holds.models.val_eq_free_iff hn.1, and_iff_left (hlive n)]
  refine ⟨fun n hn => ?_, fun n hn hne ho => ?_, fun n hn hne ho => ?_⟩
  · rw [hfree n hn, h.whole_iff]
    refine exists_congr fun b => and_congr_right fun hb => ?_
    rw [le_iff_forall_leaf]
    simp only [(h.aligned b hb).covers_iff]
  · have hle : n.order - 1 ≤ t.map.maxDepth := (Nat.sub_le _ _).trans hn.1
    rw [h.holds.models.val n hn.1, h.holds.models.val n.left hle, h.holds.models.val n.right hle]
    exact Pool.value_of_split (fun hw => hne ((hfree n hn).mpr hw)) ho
  · rw [h.holds.models.val n hn.1]
    exact Pool.value_of_leaf (fun hw => hne ((hfree n hn).mpr hw)) ho

end Filled

theorem Hollow.shows (h : s.Hollow) : s.Shows [] where
  free_iff n _ :=
    iff_of_false (fun hv => Buddy.free_ne_reserved _ (hv.symm.trans (h.val n))) (by simp)
  split n _ _ _ := by rw [h.val, h.val, h.val, max_self]
  reserved n _ _ _ := h.val n

/-- Populating a new system gives one forest whatever the order of the calls, and that forest
shows the blocks, unless the system has so many pages that it has no buffer. -/
theorem populate_any_order_iff {σ : Type} {alloc : Layout → Code σ (Option ℕ)} {m m' : σ}
    (hnew : (new pageCnt alloc).run m = .ok (some s) m') (hfits : ∀ b ∈ bs, b.Fits pageCnt)
    (hdis : bs.Pairwise Block.Disjoint) :
    (∃ t, (∀ cs, cs.Perm bs → (populate cs).run s = .ok () t) ∧ t.Shows bs) ↔
      bs = [] ∨ pageCnt ≤ 2 ^ 63 - 2 ^ 18 := by
  obtain ⟨hmax, ⟨hbig, hh⟩ | ⟨hsmall, hok, hroom, hval⟩⟩ := new_run hnew
  · constructor
    · rintro ⟨t, hrun, -⟩
      cases bs with
      | nil => exact .inl rfl
      | cons b bs =>
          have hall := hrun (b :: bs) (List.Perm.refl _)
          rw [populate_cons] at hall
          obtain ⟨_, _, hforced, -⟩ := Code.bind_eq_ok.mp hall
          exact absurd hforced hh.not_freeForced
    · rintro (rfl | hle)
      · exact ⟨s, fun cs hcs => by rw [hcs.eq_nil]; rfl, hh.shows⟩
      · omega
  · refine iff_of_true ?_ (.inr hsmall)
    have hfresh := Filled.of_reserved hok hroom hval
    have hrun : ∀ cs, cs.Perm bs → ∃ t Q, (populate cs).run s = .ok () t ∧ s.map.Same t.map ∧
        t.maxOrder = s.maxOrder ∧ Filled pageCnt bs t Q := by
      intro cs hcs
      obtain ⟨t, Q, hrun, hsame, hord, ht⟩ := hfresh.populate hmax
        (fun b hb => hfits b (hcs.mem_iff.mp hb)) (hcs.symm.pairwise hdis fun h => h.symm) (by simp)
      exact ⟨t, Q, hrun, hsame, hord, ht.mono fun b => by rw [List.append_nil, hcs.mem_iff]⟩
    obtain ⟨t, P, -, hsame, hord, ht⟩ := hrun bs (List.Perm.refl _)
    refine ⟨t, fun cs hcs => ?_, ht.shows⟩
    obtain ⟨t', Q, hrun', hsame', hord', ht'⟩ := hrun cs hcs
    rw [hrun', ht.eq hok ht' hsame hsame' (hord'.trans hord.symm)]

/-- Two blocks of four pages, in either order. -/
theorem populate_any_order_fourPages : ∃ s t,
    (new 4 fun _ => (pure (some 0) : Code Unit (Option ℕ))).run () = .ok (some s) () ∧
    (populate [⟨0, 0⟩, ⟨2, 1⟩]).run s = .ok () t ∧
    (populate [⟨2, 1⟩, ⟨0, 0⟩]).run s = .ok () t := by
  have hnew : (new 4 fun _ => (pure (some 0) : Code Unit (Option ℕ))).run ()
      = .ok (some (fourPages [0, 0, 0, 0, 0, 0, 0, 0])) () := by decide
  have hfits : ∀ b ∈ [(⟨0, 0⟩ : Block), ⟨2, 1⟩], b.Fits 4 := by
    simp only [List.forall_mem_cons]
    exact ⟨⟨by decide, by decide, by decide⟩, ⟨by decide, by decide, by decide⟩, by simp⟩
  have hdis : [(⟨0, 0⟩ : Block), ⟨2, 1⟩].Pairwise Block.Disjoint := by
    simp only [List.pairwise_cons, List.mem_singleton, forall_eq, Block.Disjoint, Block.Covers]
    exact ⟨by omega, by simp⟩
  obtain ⟨t, hrun, -⟩ := (populate_any_order_iff hnew hfits hdis).mpr (.inr (by decide))
  exact ⟨_, t, hnew, hrun _ (List.Perm.refl _), hrun _ (List.Perm.swap _ _ _)⟩

/-- The system of `2 ^ 63` pages. -/
def noBuffer : BuddySystem := ⟨⟨[], 0, 19, 2 ^ 45⟩, 18⟩

theorem new_noBuffer : (new (2 ^ 63) fun _ => (pure (some 0) : Code Unit (Option ℕ))).run ()
    = .ok (some noBuffer) () := by
  decide +kernel

/-- Not even its first page can be freed. -/
theorem populate_noBuffer : ∃ s,
    (new (2 ^ 63) fun _ => (pure (some 0) : Code Unit (Option ℕ))).run () = .ok (some s) () ∧
    Block.Fits (2 ^ 63) ⟨0, 0⟩ ∧ (populate [⟨0, 0⟩]).run s = .error .overflow s :=
  ⟨noBuffer, new_noBuffer, ⟨by decide, by decide, by decide⟩, by decide +kernel⟩

/-! ## Any calls -/

/-- A call on a block of the pages, or a reservation, that returned. -/
inductive Call (pageCnt : ℕ) : BuddySystem → BuddySystem → Prop
  | freeForced {s t : BuddySystem} {b : Block} (fits : b.Fits pageCnt)
      (run : (BuddySystem.freeForced b.idx b.order).run s = .ok () t) : Call pageCnt s t
  | free {s t : BuddySystem} {b : Block} (fits : b.Fits pageCnt)
      (run : (BuddySystem.free b.idx b.order).run s = .ok () t) : Call pageCnt s t
  | reserve {s t : BuddySystem} {order : ℕ} {r : Option ℕ}
      (run : (BuddySystem.reserve order).run s = .ok r t) : Call pageCnt s t

/-- The forest is large enough: a block of the pages is no larger than a tree, no index leaves
the buffer in a call on it, and only pages are handed out. -/
structure Roomy (pageCnt : ℕ) (s : BuddySystem) : Prop where
  length : s.map.buf.length = Usize.shl s.map.treeCnt s.map.treeDepth
  order_le : ∀ b : Block, b.Fits pageCnt → b.order ≤ s.maxOrder
  freeForced : ∀ b : Block, b.Fits pageCnt →
    ∃ t, (BuddySystem.freeForced b.idx b.order).run s = .ok () t
  free : ∀ b : Block, b.Fits pageCnt →
    (∃ t, (BuddySystem.free b.idx b.order).run s = .ok () t) ∨
      (BuddySystem.free b.idx b.order).run s = .error (.assertion "BuddySystem: Double Free!") s
  reserve : ∀ order ≤ s.maxOrder, (∃ r t, (BuddySystem.reserve order).run s = .ok r t) ∨
    (BuddySystem.reserve order).run s = .error (.unreachable
      "A fit block should be found under root with the appropriate order.") s
  idx_lt : ∀ order idx t, (BuddySystem.reserve order).run s = .ok (some idx) t →
    idx + 2 ^ order ≤ pageCnt

/-- What all calls keep. -/
structure Within (pageCnt : ℕ) (s : BuddySystem) : Prop where
  ok : s.Ok
  order : s.maxOrder = min (Usize.ceilLog2 pageCnt) buddyMaxOrder
  room : pageCnt ≤ s.map.width 0
  bounded : ∀ n, s.map.val n ≤ Buddy.free n.order
  inside : ∀ n, s.map.val n = Buddy.free n.order → n.idx * 2 ^ n.order + 2 ^ n.order ≤ pageCnt

namespace Within

theorem of_reserved (hok : s.Ok) (horder : s.maxOrder = min (Usize.ceilLog2 pageCnt) buddyMaxOrder)
    (hroom : pageCnt ≤ s.map.width 0) (hval : ∀ n, s.map.val n = Buddy.reserved) :
    s.Within pageCnt where
  ok := hok
  order := horder
  room := hroom
  bounded n := by rw [hval]; exact bot_le
  inside n hv := absurd (hv.symm.trans (hval n)) (Buddy.free_ne_reserved _)

/-- A write and a fix up: the walk makes no node free as a whole. -/
theorem of_fixup (h : Within pageCnt s) {g : ArrayForest Buddy} {v : Node → Buddy} {d : ℕ}
    (hsame : s.map.Same g) (hval : g.val = fixup v d n) (hle : ∀ a, v a ≤ Buddy.free a.order)
    (hin : ∀ a, v a = Buddy.free a.order → a.idx * 2 ^ a.order + 2 ^ a.order ≤ pageCnt) :
    Within pageCnt { s with map := g } := by
  have hcases := fixup_cases Buddy.strictMono_free.monotone d (n := n) hle
  refine ⟨h.ok.of_same hsame, h.order, by rw [hsame.width]; exact h.room, fun a => ?_,
    fun a ha => ?_⟩
  · change g.val a ≤ _
    rw [hval]
    rcases hcases a with he | ⟨-, hlow⟩
    · exact he.le.trans (hle a)
    · exact hlow.trans (Buddy.strictMono_free.monotone (Nat.sub_le _ _))
  · change g.val a = _ at ha
    rw [hval] at ha
    rcases hcases a with he | ⟨hlt, hlow⟩
    · exact hin a (he.symm.trans ha)
    · have hless : Buddy.free (a.order - 1) < Buddy.free a.order :=
        Buddy.strictMono_free (by have := order_lt_of_lt hlt; omega)
      exact absurd ha (hlow.trans_lt hless).ne

theorem node_in (h : Within pageCnt s) (hb : b.Fits pageCnt) : s.map.In b.node := by
  have hod : b.order ≤ s.map.maxDepth := h.ok.order ▸ order_le_of_fits h.order hb
  have := fill_le_width (k := b.order) le_rfl hod (hb.inside.trans h.room)
  rw [Nat.sub_self, Nat.pow_zero] at this
  exact ⟨hod, this⟩

/-- The pages of a node inside a block are pages of the block. -/
theorem node_le (hb : b.Fits pageCnt) (hle : n ≤ b.node) :
    n.idx * 2 ^ n.order + 2 ^ n.order ≤ pageCnt := by
  have hpos := Nat.two_pow_pos n.order
  have hlast : leaf (n.idx * 2 ^ n.order + (2 ^ n.order - 1)) ≤ n := by
    rw [leaf_le_iff_mem]; omega
  have hcov := hb.aligned.covers_iff.mpr (hlast.trans hle)
  have := hb.inside
  have := hcov.2
  omega

theorem freeForced (h : Within pageCnt s) (hb : b.Fits pageCnt) :
    ∃ t, (BuddySystem.freeForced b.idx b.order).run s = .ok () t ∧ Within pageCnt t := by
  obtain ⟨g, hg, hsame, hval⟩ := freeForced_run h.ok (order_le_of_fits h.order hb)
    (hb.inside.trans h.room)
  refine ⟨_, hg, h.of_fixup hsame hval (fun a => ?_) fun a ha => ?_⟩
  · rw [Models.fillBlock_aligned hb.aligned]
    split
    · exact le_rfl
    · exact h.bounded a
  · rw [Models.fillBlock_aligned hb.aligned] at ha
    split at ha
    · rename_i hle; exact node_le hb hle
    · exact h.inside a ha

/-- One write that leaves the rest alone. -/
theorem of_update (h : Within pageCnt s) {g : ArrayForest Buddy} {d : ℕ} {x : Buddy}
    (hsame : s.map.Same g) (hval : g.val = fixup (Function.update s.map.val n x) d n)
    (hle : x ≤ Buddy.free n.order)
    (hin : x = Buddy.free n.order → n.idx * 2 ^ n.order + 2 ^ n.order ≤ pageCnt) :
    Within pageCnt { s with map := g } := by
  refine h.of_fixup hsame hval (fun a => ?_) fun a ha => ?_
  · by_cases he : a = n
    · rw [he, Function.update_self]; exact hle
    · rw [Function.update_of_ne he]; exact h.bounded a
  · by_cases he : a = n
    · rw [he, Function.update_self] at ha
      rw [he]; exact hin ha
    · rw [Function.update_of_ne he] at ha
      exact h.inside a ha

theorem free (h : Within pageCnt s) (hb : b.Fits pageCnt) :
    (∃ t, (BuddySystem.free b.idx b.order).run s = .ok () t ∧ Within pageCnt t) ∨
      (BuddySystem.free b.idx b.order).run s
        = .error (.assertion "BuddySystem: Double Free!") s := by
  have hin := h.node_in hb
  by_cases hv : s.map.val b.node = Buddy.reserved
  · obtain ⟨g, hg, hsame, hval⟩ := free_run h.ok hin hv
    exact .inl ⟨_, hg, h.of_update hsame hval le_rfl fun _ => node_le hb le_rfl⟩
  · exact .inr (free_double h.ok hin hv)

/-- The search stops at a node below where it began that is free as a whole. -/
theorem find_some {v : Node → Buddy} {i : ℕ} (k : ℕ) : ∀ j, find v order k j = some i →
    (⟨order, i⟩ : Node) ≤ ⟨k, j⟩ ∧ v ⟨order, i⟩ = Buddy.free order := by
  induction k with
  | zero =>
      intro j h
      rw [find] at h
      split at h
      · cases h
      · split at h
        · rename_i hit
          obtain ⟨hv, rfl⟩ := hit
          cases h
          exact ⟨le_rfl, hv⟩
        · cases h
  | succ k ih =>
      intro j h
      rw [find] at h
      split at h
      · cases h
      · split at h
        · rename_i hit
          obtain ⟨hv, rfl⟩ := hit
          cases h
          exact ⟨le_rfl, hv⟩
        · rcases Option.or_eq_some_iff.mp h with h | ⟨-, h⟩
          · obtain ⟨hle, hv⟩ := ih _ h
            exact ⟨hle.trans (left_lt (n := ⟨k + 1, j⟩) (Nat.succ_pos k)).le, hv⟩
          · obtain ⟨hle, hv⟩ := ih _ h
            exact ⟨hle.trans (right_lt (n := ⟨k + 1, j⟩) (Nat.succ_pos k)).le, hv⟩

theorem reserve (h : Within pageCnt s) (ho : order ≤ s.maxOrder) :
    (∃ r t, (BuddySystem.reserve order).run s = .ok r t ∧ Within pageCnt t ∧
      ∀ idx, r = some idx → idx + 2 ^ order ≤ pageCnt) ∨
    (BuddySystem.reserve order).run s = .error (.unreachable
      "A fit block should be found under root with the appropriate order.") s := by
  have hb : Bounded s.map := fun n _ => h.bounded n
  rcases firstRoot_or s order with hnone | ⟨r, hr⟩
  · exact .inl ⟨none, s, reserve_none h.ok ho hnone, h, fun idx hidx => by cases hidx⟩
  cases hf : find s.map.val order s.map.maxDepth r with
  | none => exact .inr (reserve_lost h.ok hb ho hr hf)
  | some i =>
      obtain ⟨hle, hv⟩ := find_some _ r hf
      obtain ⟨g, hg, hsame, hval⟩ := reserve_some h.ok hb ho hr hf ((root_in.mpr hr.lt).mono hle)
      refine .inl ⟨_, _, hg, h.of_update hsame hval bot_le fun he => ?_, fun idx hidx => ?_⟩
      · exact absurd he.symm (Buddy.free_ne_reserved _)
      · cases hidx
        have hpages := h.inside ⟨order, i⟩ hv
        rwa [Nat.shiftLeft_eq]

theorem call (h : Within pageCnt s) (hcall : Call pageCnt s t) : Within pageCnt t := by
  cases hcall with
  | freeForced fits run =>
      obtain ⟨t', hrun, ht⟩ := h.freeForced fits
      cases hrun.symm.trans run
      exact ht
  | free fits run =>
      rcases h.free fits with ⟨t', hrun, ht⟩ | hrun
      · cases hrun.symm.trans run
        exact ht
      · cases hrun.symm.trans run
  | reserve run =>
      rcases h.reserve (reserve_order_le run) with ⟨r, t', hrun, ht, -⟩ | hrun
      · cases hrun.symm.trans run
        exact ht
      · cases hrun.symm.trans run

theorem roomy (h : Within pageCnt s) : Roomy pageCnt s where
  length := h.ok.map.len.trans (Usize.shl_of_lt h.ok.map.fits).symm
  order_le _ hb := order_le_of_fits h.order hb
  freeForced _ hb := (h.freeForced hb).imp fun _ => And.left
  free _ hb := (h.free hb).imp_left fun ⟨t, hrun, _⟩ => ⟨t, hrun⟩
  reserve _ ho := (h.reserve ho).imp_left fun ⟨r, t, hrun, _⟩ => ⟨r, t, hrun⟩
  idx_lt order idx t hrun := by
    rcases h.reserve (reserve_order_le hrun) with ⟨r, t', hrun', -, hidx⟩ | hlost
    · cases hrun'.symm.trans hrun
      exact hidx idx rfl
    · cases hlost.symm.trans hrun

end Within

/-- The forest of a new system is large enough after any calls, unless the system has so many
pages that it has no buffer. -/
theorem forest_roomy_iff {σ : Type} {alloc : Layout → Code σ (Option ℕ)} {m m' : σ}
    (hnew : (new pageCnt alloc).run m = .ok (some s) m') :
    (∀ t, Relation.ReflTransGen (Call pageCnt) s t → Roomy pageCnt t) ↔
      pageCnt ≤ 2 ^ 63 - 2 ^ 18 := by
  obtain ⟨hmax, ⟨hbig, hh⟩ | ⟨hsmall, hok, hroom, hval⟩⟩ := new_run hnew
  · refine iff_of_false (fun hall => ?_) (not_le.mpr hbig)
    have hfits : Block.Fits pageCnt ⟨0, 0⟩ := ⟨Nat.dvd_zero _, Nat.zero_le _, by simp only; omega⟩
    obtain ⟨t, hrun⟩ := (hall s .refl).freeForced _ hfits
    exact hh.not_freeForced hrun
  · refine iff_of_true (fun t hrun => ?_) hsmall
    have hwithin : Within pageCnt t := by
      induction hrun with
      | refl => exact .of_reserved hok hmax hroom hval
      | tail _ hcall ih => exact ih.call hcall
    exact hwithin.roomy

/-- A page that was never handed out is freed; it is a page of the system all the same. -/
theorem forest_roomy_fourPages : ∃ s t,
    (new 4 fun _ => (pure (some 0) : Code Unit (Option ℕ))).run () = .ok (some s) () ∧
    Call 4 s t ∧ Roomy 4 t := by
  have hnew : (new 4 fun _ => (pure (some 0) : Code Unit (Option ℕ))).run ()
      = .ok (some (fourPages [0, 0, 0, 0, 0, 0, 0, 0])) () := by decide
  have hfree : (BuddySystem.free 3 0).run (fourPages [0, 0, 0, 0, 0, 0, 0, 0])
      = .ok () (fourPages [1, 0, 1, 0, 0, 0, 1, 0]) := by decide
  have hcall : Call 4 (fourPages [0, 0, 0, 0, 0, 0, 0, 0]) (fourPages [1, 0, 1, 0, 0, 0, 1, 0]) :=
    .free (b := ⟨3, 0⟩) ⟨by decide, by decide, by decide⟩ hfree
  exact ⟨_, _, hnew, hcall, (forest_roomy_iff hnew).mpr (by decide) _ (.single hcall)⟩

/-- The forest of `2 ^ 63` pages: no buffer, and the level of its first page lies outside. -/
theorem forest_noBuffer : ∃ s,
    (new (2 ^ 63) fun _ => (pure (some 0) : Code Unit (Option ℕ))).run () = .ok (some s) () ∧
    s.map.buf.length = 0 ∧ Block.Fits (2 ^ 63) ⟨0, 0⟩ ∧
      (freeForced 0 0).run s = .error .overflow s :=
  ⟨noBuffer, new_noBuffer, rfl, ⟨by decide, by decide, by decide⟩, by decide +kernel⟩

end BuddySystem

end Koe
