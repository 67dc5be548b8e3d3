/-
# `KoeOs.Phy.Takeover` — runs of the page allocator after the hand-over

`PhysicalMemoryRecord::new` leaves a forest that is not the one of a pool: blocks of boot
memory begin at any frame, and a node may be recorded free as a whole while some of the
frames below it are not.  What is certain is that the forest is `Rough` if the blocks are
spread, and this is enough for whole runs:

    reserve    takes a block that is recorded free, and the forest stays rough
    free       puts a block that is out back, and the forest stays rough

so no frame is handed out twice (`handed_over_safe`).  The free memory of most machines is
one block above the kernel, and one block is spread wherever it begins.

Where it is not, a single page can be taken without a trace above it, and the block it lies
in is handed out once more (`frame_handed_out_twice`).

All this is about records that keep what is written to them.  The boot allocator returns the
offset in its block as a physical address, so the table of frames and the forest lie near
address 0, wherever the blocks are, and both lie at address 0 if they come from different blocks
(`records_overlap`).  That they own the memory they lie in is therefore a hypothesis
(`OwnsRecords`), and a part of what is safe is that no block that is out reaches into them.
-/
import KoeOs.Phy.HandOver
import KoeOs.Alloc.Backing

namespace Koe

open Node MaxTree

namespace BuddySystem

open ArrayForest

variable {s t : BuddySystem} {live : List Block} {b c : Block} {order : ℕ}

/-! ## The search -/

section Search

variable {v : Node → Buddy} {nodes : Set Node} {top o : ℕ}

/-- The children of a node that records an order lie in no block that is out. -/
theorem child_not_lt (h : Rough Buddy.free top v nodes) {n c : Node} (hc : c.parent = n)
    (hout : ∀ l ∈ nodes, ¬ n < l) (ho : Buddy.free o ≤ v n) : ∀ l ∈ nodes, ¬ c < l := by
  intro l hl hlt
  rw [lt_iff_parent_le, hc] at hlt
  rcases eq_or_lt_of_le hlt with rfl | hlt
  · exact h.not_live_of_le Buddy.strictMono_free Buddy.bot_lt_free ho hl
  · exact hout l hl hlt

theorem free_self (h : Rough Buddy.free top v nodes) {n : Node} (hout : ∀ l ∈ nodes, ¬ n < l)
    (hv : v n = Buddy.free n.order) : Rough.Free Buddy.free v nodes n := by
  refine ⟨hv, fun l hl hle => ?_⟩
  rcases eq_or_lt_of_le hle with rfl | hlt
  · exact h.not_live Buddy.strictMono_free Buddy.bot_lt_free hv hl
  · exact hout l hl hlt

/-- What the search stops at is a free block. -/
theorem find_free (h : Rough Buddy.free top v nodes) (k : ℕ) : ∀ {j i : ℕ},
    (∀ l ∈ nodes, ¬ (⟨k, j⟩ : Node) < l) → find v o k j = some i →
    Rough.Free Buddy.free v nodes ⟨o, i⟩ := by
  induction k with
  | zero =>
      intro j i hout hfind
      rw [find] at hfind
      split at hfind
      · cases hfind
      · split at hfind
        · rename_i hit
          obtain ⟨hv, rfl⟩ := hit
          cases hfind
          exact free_self h hout hv
        · cases hfind
  | succ k ih =>
      intro j i hout hfind
      rw [find] at hfind
      split at hfind
      · cases hfind
      · rename_i hge
        split at hfind
        · rename_i hit
          obtain ⟨hv, rfl⟩ := hit
          cases hfind
          exact free_self h hout hv
        · have hleft := child_not_lt h (left_parent (n := ⟨k + 1, j⟩) (Nat.succ_pos k)) hout
            (not_lt.mp hge)
          have hright := child_not_lt h (right_parent (n := ⟨k + 1, j⟩) (Nat.succ_pos k)) hout
            (not_lt.mp hge)
          rcases Option.or_eq_some_iff.mp hfind with hl | ⟨-, hr⟩
          · exact ih hleft hl
          · exact ih hright hr

/-- The search stops at a block if the node it starts from records the order. -/
theorem find_isSome (h : Rough Buddy.free top v nodes) (k : ℕ) : ∀ {j : ℕ},
    Buddy.free o ≤ v ⟨k, j⟩ → (find v o k j).isSome = true := by
  have hmono := Buddy.strictMono_free
  have hbot := Buddy.bot_lt_free
  induction k with
  | zero =>
      intro j ho
      obtain ⟨hv, hzero⟩ := h.leaf_full hmono hbot (n := ⟨0, j⟩) rfl ho
      rw [find, if_neg (not_lt.mpr ho), if_pos ⟨hv, hzero⟩]
      rfl
  | succ k ih =>
      intro j ho
      rw [find, if_neg (not_lt.mpr ho)]
      split
      · rfl
      · rename_i hit
        rw [Option.isSome_or, Bool.or_eq_true]
        rcases h.descend hmono hbot (n := ⟨k + 1, j⟩) (Nat.succ_pos k) ho hit with hl | hr
        · exact .inl (ih hl)
        · exact .inr (ih hr)

end Search

/-! ## One call -/

/-- The nodes of the blocks. -/
def nodes (live : List Block) : Set Node := {n | ∃ b ∈ live, b.node = n}

/-- The forest is rough, with the nodes of `live` handed out. -/
structure Serves (s : BuddySystem) (live : List Block) : Prop where
  ok : s.Ok
  rough : Rough Buddy.free s.map.maxDepth s.map.val (nodes live)
  live_in : ∀ b ∈ live, s.map.In b.node
  aligned : ∀ b ∈ live, b.Aligned
  nodup : live.Nodup

/-- Recorded free as a whole, or out. -/
def Keeps (s : BuddySystem) (live : List Block) (n : Node) : Prop :=
  Kept Buddy.free s.map.val (nodes live) n

theorem nodes_nil : nodes [] = ∅ :=
  Set.eq_empty_of_forall_notMem fun _ ⟨_, hb, _⟩ => absurd hb List.not_mem_nil

theorem nodes_cons (b : Block) (live : List Block) :
    nodes (b :: live) = insert b.node (nodes live) := by
  ext n
  simp only [nodes, Set.mem_ofPred_eq, List.exists_mem_cons_iff, Set.mem_insert_iff, eq_comm]

namespace Serves

theorem mem_nodes (hb : b ∈ live) : b.node ∈ nodes live := ⟨b, hb, rfl⟩

theorem keeps (hb : b ∈ live) : Keeps s live b.node := .inr (mem_nodes hb)

theorem nodes_erase (h : Serves s live) (hb : b ∈ live) :
    nodes (live.erase b) = nodes live \ {b.node} := by
  ext n
  simp only [nodes, Set.mem_sdiff, Set.mem_ofPred_eq, Set.mem_singleton_iff]
  constructor
  · rintro ⟨c, hc, rfl⟩
    obtain ⟨hne, hc⟩ := h.nodup.mem_erase_iff.mp hc
    exact ⟨⟨c, hc, rfl⟩, fun he => hne ((h.aligned c hc).node_injective (h.aligned b hb) he)⟩
  · rintro ⟨⟨c, hc, rfl⟩, hne⟩
    exact ⟨c, h.nodup.mem_erase_iff.mpr ⟨fun he => hne (he ▸ rfl), hc⟩, rfl⟩

/-- Blocks that are out do not overlap. -/
theorem disjoint (h : Serves s live) (hb : b ∈ live) (hc : c ∈ live) (hne : b ≠ c) :
    b.Disjoint c := fun i hbi hci => by
  have hnode : b.node ≠ c.node := fun he =>
    hne ((h.aligned b hb).node_injective (h.aligned c hc) he)
  exact h.rough.live_disjoint (mem_nodes hb) (mem_nodes hc) hnode i
    ⟨(h.aligned b hb).covers_iff.mp hbi, (h.aligned c hc).covers_iff.mp hci⟩

/-- `reserve` hands out a block that was recorded free. -/
theorem reserve_run {r : ℕ} (h : Serves s live) (ho : order ≤ s.maxOrder)
    (hr : FirstRoot s order r) :
    ∃ i t, (reserve order).run s = .ok (some (i <<< order)) t ∧
      Serves t (⟨i <<< order, order⟩ :: live) ∧ s.map.Same t.map ∧
      ∀ n, Keeps t (⟨i <<< order, order⟩ :: live) n → Keeps s live n := by
  have hmono := Buddy.strictMono_free
  have hbot := Buddy.bot_lt_free
  -- a root lies in no block that is out
  have hout : ∀ l ∈ nodes live, ¬ (⟨s.map.maxDepth, r⟩ : Node) < l := fun l hl hlt =>
    absurd (order_lt_of_lt hlt) (not_lt.mpr (h.rough.live_le l hl))
  obtain ⟨i, hi⟩ := Option.isSome_iff_exists.mp (find_isSome h.rough s.map.maxDepth hr.more.le)
  have hfree := find_free h.rough _ hout hi
  have hin : s.map.In ⟨order, i⟩ := by
    by_contra hn
    exact Buddy.free_ne_reserved _ (hfree.1.symm.trans (val_of_not_in hn))
  obtain ⟨g, hrun, hsame, hval⟩ :=
    BuddySystem.reserve_some h.ok (fun n _ => h.rough.le n) ho hr hi hin
  have hnodes : nodes (⟨i <<< order, order⟩ :: live) = insert ⟨order, i⟩ (nodes live) := by
    rw [nodes_cons, Block.node_shiftLeft]
  refine ⟨i, _, hrun, ⟨h.ok.of_same hsame, ?_, ?_, ?_, ?_⟩, hsame, fun n hn => ?_⟩
  · rw [hnodes]
    change Rough Buddy.free g.maxDepth g.val _
    rw [hsame.maxDepth, hval]
    exact h.rough.take hmono hbot hfree
  · rw [List.forall_mem_cons, Block.node_shiftLeft]
    exact ⟨(hsame.in_iff _).mpr hin, fun b hb => (hsame.in_iff _).mpr (h.live_in b hb)⟩
  · rw [List.forall_mem_cons]
    exact ⟨Block.aligned_shiftLeft _ _, h.aligned⟩
  · refine List.nodup_cons.mpr ⟨fun hmem => hfree.2 _ (mem_nodes hmem) ?_, h.nodup⟩
    rw [Block.node_shiftLeft]
  · rw [Keeps, hnodes] at hn
    change Kept Buddy.free g.val _ n at hn
    rw [hval] at hn
    exact ((h.rough.kept_take_iff hmono hbot hfree n).mp hn).1

/-- A block that is out can be freed. -/
theorem free_run (h : Serves s live) (hb : b ∈ live) :
    ∃ t, (free b.idx b.order).run s = .ok () t ∧ Serves t (live.erase b) ∧ s.map.Same t.map ∧
      ∀ n, Keeps t (live.erase b) n → Keeps s live n := by
  have hmono := Buddy.strictMono_free
  have hin := h.live_in b hb
  obtain ⟨g, hrun, hsame, hval⟩ := BuddySystem.free_run h.ok hin (h.rough.live_bot _ (mem_nodes hb))
  have hmem : ∀ {c}, c ∈ live.erase b → c ∈ live := List.mem_of_mem_erase
  refine ⟨_, hrun, ⟨h.ok.of_same hsame, ?_,
    fun c hc => (hsame.in_iff _).mpr (h.live_in c (hmem hc)),
    fun c hc => h.aligned c (hmem hc), h.nodup.erase b⟩, hsame, fun n hn => ?_⟩
  · rw [h.nodes_erase hb]
    change Rough Buddy.free g.maxDepth g.val _
    rw [hsame.maxDepth, hval]
    exact h.rough.give hmono (mem_nodes hb)
  · rw [Keeps, h.nodes_erase hb] at hn
    change Kept Buddy.free g.val _ n at hn
    rw [hval] at hn
    exact ((h.rough.kept_give_iff hmono (mem_nodes hb) n).mp hn).1

end Serves

/-- The invariant of a run from `s₀`: the forest is rough, no node is kept that was not, and the
forest lies where it lay. -/
structure Serving (s₀ : BuddySystem) (live : List Block) (s : BuddySystem) : Prop where
  serves : s.Serves live
  kept : ∀ n, Keeps s live n → Keeps s₀ [] n
  same : s₀.map.Same s.map

end BuddySystem

namespace PhysicalMemoryRecord

variable {r r₀ : PhysicalMemoryRecord} {Own : Node → Prop} {live freed : List Block} {b : Block}

/-! ## Whole runs -/

/-- A record whose forest is rough and records no node as free but those of `Own`. -/
structure Opened (Own : Node → Prop) (r₀ : PhysicalMemoryRecord) : Prop where
  placed : r₀.Placed
  serves : r₀.buddy.Serves []
  own : ∀ n, BuddySystem.Keeps r₀.buddy [] n → Own n
  inside : ∀ n, Own n → ∀ i, leaf i ≤ n → i < r₀.frames.length

namespace Opened

theorem serving (h₀ : Opened Own r₀) : r₀.buddy.Serving [] r₀.buddy :=
  ⟨h₀.serves, fun _ => id, .refl h₀.serves.ok.map⟩

theorem own_node (h₀ : Opened Own r₀) {s : BuddySystem} (h : r₀.buddy.Serving live s)
    (hb : b ∈ live) : Own b.node :=
  h₀.own b.node (h.kept _ (BuddySystem.Serves.keeps hb))

/-- The buddy system of such a record is enough for the page allocator. -/
theorem service (h₀ : Opened Own r₀) :
    BuddySystem.Service r₀.frames.length r₀.buddy.Serving where
  ok h := h.serves.ok
  nodup h := h.serves.nodup
  aligned h hb := h.serves.aligned _ hb
  disjoint h hb hc hne := h.serves.disjoint hb hc hne
  fits := by
    intro live s b h hb
    have hpos := Nat.two_pow_pos b.order
    -- its last page is one of the frames
    have hlast := h₀.inside _ (h₀.own_node h hb) (b.idx + 2 ^ b.order - 1)
      ((h.serves.aligned b hb).covers_iff.mp ⟨by omega, by omega⟩)
    omega
  reserve := by
    intro live s order k h ho hk
    obtain ⟨i, t, hrun, hserves, hsame, hkeeps⟩ := h.serves.reserve_run ho hk
    exact ⟨_, t, hrun, hserves, fun n hn => h.kept n (hkeeps n hn),
      h.same.trans h₀.serves.ok.map hsame⟩
  free := by
    intro live s b h hb
    obtain ⟨t, hrun, hserves, hsame, hkeeps⟩ := h.serves.free_run hb
    exact ⟨t, hrun, hserves, fun n hn => h.kept n (hkeeps n hn),
      h.same.trans h₀.serves.ok.map hsame⟩

theorem tracked (h₀ : Opened Own r₀) (h : Run r₀ live freed r) :
    Tracked r₀.buddy.Serving r₀ live r :=
  h.tracked h₀.service h₀.placed h₀.serving

/-- `PhysicalMemoryRecord` is what the heap relies on, wherever the blocks it was given begin. -/
theorem physMem_lawful (h₀ : Opened Own r₀) : physMem.Lawful (HandedFrom r₀) :=
  physMem_lawful_from h₀.service h₀.placed h₀.serving

end Opened

/-! ## After the hand-over -/

variable {m m₁ : MemblockSystem} {uninit : ℕ → Frame} {blocks : Memblocks} {stop : ℕ}
  {t : BuddySystem}

/-- No block reaches back, by rounding down, into the frames of a block before it. -/
def Spread (r : PhysicalMemoryRecord) (blocks : Memblocks) : Prop :=
  (blocks.map r.stretch).Pairwise Stretch.Behind

instance (blocks : Memblocks) : Decidable (r.Spread blocks) :=
  inferInstanceAs (Decidable ((blocks.map r.stretch).Pairwise Stretch.Behind))

/-- What `new` leaves is rough if the blocks are spread. -/
theorem Laid.rough (hs : r.Spread blocks)
    (h : Laid r (fun n => ∃ b ∈ blocks, (r.stretch b).Marks n) stop t) :
    Rough Buddy.free t.map.maxDepth t.map.val ∅ := by
  obtain ⟨bs, hm, -, hmarks⟩ := h.marked
  have hfree : ∀ n, t.map.val n = Buddy.free n.order ↔
      ∃ x ∈ blocks.map r.stretch, x.Marks n := fun n => by
    simp only [hm.free_iff, hmarks, List.mem_map, exists_exists_and_eq_and]
  have hkept : ∀ n, Kept Buddy.free t.map.val ∅ n ↔ ∃ x ∈ blocks.map r.stretch, x.Marks n :=
    fun n => by rw [Kept, or_iff_left (Set.notMem_empty n), hfree]
  refine ⟨hm.bounded, fun n hn => ?_, fun hab hbc ha hc => ?_, fun {n} hn hpos => ?_,
    fun {n} hn hpos => ?_, fun {n} hn hzero => ?_, by simp, by simp, by simp⟩
  · exact ArrayForest.val_of_not_in fun hin => absurd hin.1 (not_le.mpr hn)
  · rw [hkept] at ha hc ⊢
    exact Stretch.marks_between_of_behind hs ha hc hab hbc
  · obtain ⟨x, hx, hmark⟩ := (hkept n).mp hn
    exact (hfree _).mpr ⟨x, hx, hmark.right hpos⟩
  · by_cases hle : n.order ≤ t.map.maxDepth
    · exact h.settled n hpos hle fun he => hn (.inl he)
    · rw [ArrayForest.val_of_not_in fun hin => hle hin.1]
      exact bot_le
  · -- a single page records 0 or 1
    have hlt := lt_of_le_of_ne (hm.bounded n) fun he => hn (.inl he)
    rw [hzero, Buddy.lt_def] at hlt
    exact Buddy.ext (Nat.lt_one_iff.mp hlt)

/-- The frames `new` records lie in the physical address space. -/
theorem Prepared.placed {range : AddrRange uma} (hr : Prepared range r)
    (hfit : range.base.value + range.size ≤ uma.stop) : r.Placed := by
  have hstop : uma.stop = 2 ^ 46 := rfl
  have hlt := Usize.divCeil_mul_lt (a := range.size + range.base.value % 4096) (b := 4096)
    (by decide)
  refine ⟨hr.small, ?_⟩
  rw [hr.base, hr.len, frameSize_eq]
  omega

/-- The record `new` returns, if the blocks it is given are spread. -/
theorem new_opened (hfit : m.managedRange.base.value + m.managedRange.size ≤ uma.stop)
    (hasc : m.freeBlocks.Ascending) (hprep : (prepare uninit).run m = .ok r m₁)
    (hfree : Frozen m.managedRange m₁.freeBlocks) (hs : r.Spread m₁.freeBlocks) :
    ∃ buddy, (new uninit).run m = .ok { r with buddy } m₁ ∧ r.buddy.map.Same buddy.map ∧
      Opened (fun n => ∃ b ∈ m₁.freeBlocks, (r.stretch b).Marks n) { r with buddy } := by
  obtain ⟨buddy, stop, hr, hnew, hlaid⟩ := new_laid hfit hasc hprep hfree
  obtain ⟨bs, hm, -, hmarks⟩ := hlaid.marked
  refine ⟨buddy, hnew, hlaid.same, ?_, ⟨hm.ok, ?_, by simp, by simp, List.nodup_nil⟩,
    fun n hn => ?_, ?_⟩
  · exact ⟨(hr.placed hfit).small, (hr.placed hfit).inside⟩
  · rw [BuddySystem.nodes_nil]
    exact hlaid.rough hs
  · have hfull := hn.resolve_right (by simp [BuddySystem.nodes_nil])
    exact (hmarks n).mp ((hm.free_iff n).mp hfull)
  · rintro n ⟨b, hb, hmark⟩ i hi
    exact (hmark.span hi).2.trans_le (lastFrame_le hr (hfree.inside b hb))

/-- The frames of `b` are freed for one of the blocks.  A single page is one that lies behind
the first address of the block, while a larger one may begin before it. -/
def Given (r : PhysicalMemoryRecord) (blocks : Memblocks) (b : Block) : Prop :=
  ∃ c ∈ blocks, (∀ i, b.Covers i → r.Frees c i) ∧ (b.order = 0 → r.firstFrame c ≤ b.idx)

theorem given_of_marks (hal : b.Aligned) (h : ∃ c ∈ blocks, (r.stretch c).Marks b.node) :
    r.Given blocks b := by
  obtain ⟨c, hc, hmark⟩ := h
  refine ⟨c, hc, fun i hi => exists_stretch_marks_iff.mp ⟨_, hal.covers_iff.mp hi, hmark⟩,
    fun hzero => ?_⟩
  have hfirst := hmark.2.1
  simpa only [Block.node, stretch, hzero, Nat.pow_zero, Nat.div_one, Nat.shiftRight_zero]
    using hfirst

/-! ## Where the records lie -/

/-- The table of frames in physical memory. -/
def tableExtent (r : PhysicalMemoryRecord) : Extent :=
  ⟨r.framesPtr - physicalRemap.start, r.frames.length * Frame.layout.size⟩

/-- The buffer of the forest in physical memory. -/
def forestExtent (r : PhysicalMemoryRecord) : Extent :=
  ⟨r.buddy.map.ptr - physicalRemap.start, r.buddy.map.buf.length * Buddy.layout.size⟩

/-- The byte `x` belongs to a record. -/
def InRecords (r : PhysicalMemoryRecord) (x : ℕ) : Prop :=
  r.tableExtent.Contains x ∨ r.forestExtent.Contains x

/-- The records have their memory for themselves: they do not overlap, and no frame that is freed
for one of the blocks reaches into them. -/
structure OwnsRecords (r : PhysicalMemoryRecord) (blocks : Memblocks) : Prop where
  apart : r.tableExtent.Disjoint r.forestExtent
  frames : ∀ b ∈ blocks, ∀ i, r.Frees b i → ∀ x, (r.extentOf ⟨i, 0⟩).Contains x → ¬ r.InRecords x

theorem forestExtent_eq {r r' : PhysicalMemoryRecord} (hok : r.buddy.map.Ok)
    (h : r.buddy.map.Same r'.buddy.map) : r'.forestExtent = r.forestExtent := by
  rw [forestExtent, forestExtent, h.ptr, h.ok.len, hok.len, h.depth, h.cnt]

/-- The records stay where they are in a run. -/
theorem Opened.extents_eq (h₀ : Opened Own r₀) (h : Run r₀ live freed r) :
    r.tableExtent = r₀.tableExtent ∧ r.forestExtent = r₀.forestExtent := by
  have ht := h₀.tracked h
  refine ⟨?_, forestExtent_eq h₀.serves.ok.map ht.buddy.same⟩
  rw [tableExtent, tableExtent, ht.table, ht.len]

theorem Opened.inRecords_iff (h₀ : Opened Own r₀) (h : Run r₀ live freed r) {x : ℕ} :
    r.InRecords x ↔ r₀.InRecords x := by
  obtain ⟨htable, hforest⟩ := h₀.extents_eq h
  rw [InRecords, InRecords, htable, hforest]

/-- A byte of a block lies in one of its frames. -/
theorem exists_frame_of_extentOf {x : ℕ} (hx : (r.extentOf b).Contains x) :
    ∃ i, b.Covers i ∧ (r.extentOf ⟨i, 0⟩).Contains x := by
  obtain ⟨hlow, hhigh⟩ := hx
  simp only [extentOf, addrOf, frameSize_eq] at hlow hhigh
  refine ⟨(x - r.base.base.value) / 4096, ⟨by omega, by omega⟩, ?_⟩
  simp only [Extent.Contains, extentOf, addrOf, frameSize_eq, Nat.pow_zero]
  omega

/-- The records lie one behind the other, and the frames behind them. -/
theorem OwnsRecords.of_le {r : PhysicalMemoryRecord}
    (htable : r.tableExtent.base + r.tableExtent.size ≤ r.forestExtent.base)
    (hforest : r.forestExtent.base + r.forestExtent.size ≤ r.base.base.value)
    (blocks : Memblocks) : OwnsRecords r blocks := by
  refine ⟨Extent.Disjoint.of_le htable, fun b _ i _ x hx hin => ?_⟩
  have hlow : r.base.base.value ≤ x := (Nat.le_add_right _ _).trans hx.1
  rcases hin with h | h
  · exact absurd (hlow.trans_lt h.2) (by omega)
  · exact absurd (hlow.trans_lt h.2) (by omega)

/-- Blocks that were given to the allocator stay out of its records. -/
theorem OwnsRecords.not_inRecords (h : OwnsRecords r blocks) (hb : r.Given blocks b) {x : ℕ}
    (hx : (r.extentOf b).Contains x) : ¬ r.InRecords x := by
  obtain ⟨c, hc, hfrees, -⟩ := hb
  obtain ⟨i, hi, hxi⟩ := exists_frame_of_extentOf hx
  exact h.frames c hc i (hfrees i hi) x hxi

/-- What a maintainer relies on in a state of a run: blocks that are out share no frame and
were given to the allocator, its two records overlap neither each other nor a block that is out,
requests return, and what is out can be given back. -/
structure Safe (r₀ : PhysicalMemoryRecord) (blocks : Memblocks) (live : List Block)
    (r : PhysicalMemoryRecord) : Prop where
  disjoint : live.Pairwise Block.Disjoint
  given : ∀ b ∈ live, r₀.Given blocks b
  apart : r.tableExtent.Disjoint r.forestExtent
  records : ∀ b ∈ live, ∀ x, (r.extentOf b).Contains x → ¬ r.InRecords x
  order : ∀ b ∈ live, r.frames[b.idx]? = some ⟨b.order⟩
  allocates : ∀ cnt ≤ 2 ^ 63, ∃ res r', (allocatePages cnt .small).run r = .ok res r'
  deallocates : ∀ b ∈ live, ∀ pages : PageRange uma, pages.base.base.value = r.addrOf b.idx →
    ∃ r', (deallocatePages pages).run r = .ok () r'

/-- `new` returns if the blocks are spread, and if its records own their memory, every state of
every run from its record on is safe, wherever the blocks begin. -/
theorem handed_over_safe (hfit : m.managedRange.base.value + m.managedRange.size ≤ uma.stop)
    (hasc : m.freeBlocks.Ascending) (hprep : (prepare uninit).run m = .ok r m₁)
    (hfree : Frozen m.managedRange m₁.freeBlocks) (hs : r.Spread m₁.freeBlocks)
    (howns : r.OwnsRecords m₁.freeBlocks) :
    ∃ buddy, (new uninit).run m = .ok { r with buddy } m₁ ∧
      ∀ live freed r', Run { r with buddy } live freed r' →
        Safe r m₁.freeBlocks live r' := by
  obtain ⟨buddy, hnew, hsame, h₀⟩ := new_opened hfit hasc hprep hfree hs
  refine ⟨buddy, hnew, fun live freed r' h => ?_⟩
  have ht := h₀.tracked h
  have hserves := ht.buddy.serves
  have hgiven : ∀ b ∈ live, r.Given m₁.freeBlocks b := fun b hb =>
    given_of_marks (hserves.aligned b hb) (h₀.own_node ht.buddy hb)
  -- the records are those of `r`
  have hforest : forestExtent { r with buddy } = r.forestExtent :=
    forestExtent_eq (prepare_eq_ok hfit hasc hprep).1.ok.map hsame
  obtain ⟨htable', hforest'⟩ := h₀.extents_eq h
  have hin : ∀ x, r'.InRecords x ↔ r.InRecords x := fun x => by
    rw [InRecords, htable', hforest', hforest]
    rfl
  refine ⟨hserves.nodup.pairwise_of_forall_ne fun _ hb _ hc => hserves.disjoint hb hc, hgiven, ?_,
    fun b hb x hx => ?_, ht.order, fun cnt hcnt => ht.allocate_ok h₀.service h₀.placed hcnt,
    fun b hb pages hbase => ?_⟩
  · rw [htable', hforest', hforest]
    exact howns.apart
  · rw [hin]
    rw [extentOf_congr ht.base] at hx
    exact howns.not_inRecords (hgiven b hb) hx
  · obtain ⟨r'', -, hrun, -⟩ := ht.deallocate_run h₀.service h₀.placed hb hbase
    exact ⟨_, hrun⟩

/-- One block is spread wherever it begins. -/
theorem spread_singleton (r : PhysicalMemoryRecord) (b : Memblock) : r.Spread [b] :=
  List.pairwise_singleton _ _

/-- One area: the records take its first bytes, and the frames are handed over from an odd
frame on.  The first page taken is frame 1. -/
theorem handed_over_safe_oneArea : ∃ m m₁ r b b',
    (MemblockSystem.init ⟨0x200000⟩ [⟨0x200000, 0x4000, .available⟩]).run b = .ok m b' ∧
    m.managedRange.base.value + m.managedRange.size ≤ uma.stop ∧ m.freeBlocks.Ascending ∧
    (prepare fun _ => ⟨0⟩).run m = .ok r m₁ ∧ Frozen m.managedRange m₁.freeBlocks ∧
    r.Spread m₁.freeBlocks ∧ r.OwnsRecords m₁.freeBlocks ∧
    ∃ buddy, (new fun _ => ⟨0⟩).run m = .ok { r with buddy } m₁ ∧
      ∃ live r', Run { r with buddy } live [] r' ∧ live ≠ [] ∧
        Safe r m₁.freeBlocks live r' := by
  have hinit : (MemblockSystem.init ⟨0x200000⟩ [⟨0x200000, 0x4000, .available⟩]).run
      ⟨[], ⟨0⟩, ⟨0⟩⟩ = .ok
      ⟨[], [], some ⟨⟨0x200000⟩, 0x4000, .free⟩, 0, ⟨⟨0x200000⟩, 0x4000⟩, false⟩
      ⟨[⟨⟨0x200000⟩, 0x4000, .free⟩], ⟨0x200000⟩, ⟨0x204000⟩⟩ := by
    decide +kernel
  have hprep : (prepare fun _ => ⟨0⟩).run
      ⟨[], [], some ⟨⟨0x200000⟩, 0x4000, .free⟩, 0, ⟨⟨0x200000⟩, 0x4000⟩, false⟩
      = .ok (bootFrames [0, 0, 0, 0, 0, 0, 0, 0])
        ⟨[⟨⟨0x200010⟩, 0x3ff0, .free⟩], [⟨⟨0x200000⟩, 16, .reserved⟩], none, 16,
          ⟨⟨0x200000⟩, 0x4000⟩, false⟩ := by
    decide +kernel
  have hfull : (new fun _ => ⟨0⟩).run
      ⟨[], [], some ⟨⟨0x200000⟩, 0x4000, .free⟩, 0, ⟨⟨0x200000⟩, 0x4000⟩, false⟩
      = .ok (bootFrames [2, 2, 1, 0, 1, 1, 1, 0])
        ⟨[⟨⟨0x200010⟩, 0x3ff0, .free⟩], [⟨⟨0x200000⟩, 16, .reserved⟩], none, 16,
          ⟨⟨0x200000⟩, 0x4000⟩, false⟩ := by
    decide +kernel
  have halloc : (allocatePages 1 .small).run (bootFrames [2, 2, 1, 0, 1, 1, 1, 0])
      = .ok (some ⟨⟨⟨0x201000⟩, .small, by decide⟩, 1⟩)
        (bootFrames [1, 0, 1, 0, 0, 1, 1, 0]) := by
    decide +kernel
  have hfree : Frozen ⟨⟨0x200000⟩, 0x4000⟩ [⟨⟨0x200010⟩, 0x3ff0, .free⟩] :=
    ⟨by simp [Inside], by simp⟩
  have howns : (bootFrames [0, 0, 0, 0, 0, 0, 0, 0]).OwnsRecords
      [⟨⟨0x200010⟩, 0x3ff0, .free⟩] := .of_le (by decide) (by decide) _
  obtain ⟨buddy, hnew, hsafe⟩ := handed_over_safe (by decide) (by decide) hprep hfree
    (spread_singleton _ _) howns
  have hrun : Run { bootFrames [0, 0, 0, 0, 0, 0, 0, 0] with buddy } [⟨1, 0⟩] []
      (bootFrames [1, 0, 1, 0, 0, 1, 1, 0]) := by
    rw [← (EStateM.Result.ok.inj (hfull.symm.trans hnew)).1]
    exact .allocate .start halloc
  exact ⟨_, _, _, _, _, hinit, by decide, by decide, hprep, hfree, spread_singleton _ _, howns,
    buddy, hnew, _, _, hrun, List.cons_ne_nil _ _, hsafe _ _ _ hrun⟩

/-- The upper of two areas has room for the table and none for the forest, which is taken from the
lower one.  Both lie at physical address 0. -/
theorem records_overlap : ∃ m m₁ r b b',
    (MemblockSystem.init ⟨0x400000⟩ [⟨0x400000, 0xb000, .available⟩,
      ⟨0x40c000, 40, .available⟩]).run b = .ok m b' ∧
    (prepare fun _ => ⟨0⟩).run m = .ok r m₁ ∧ r.Spread m₁.freeBlocks ∧
    r.tableExtent.Contains 0 ∧ r.forestExtent.Contains 0 := by
  have hinit : (MemblockSystem.init ⟨0x400000⟩ [⟨0x400000, 0xb000, .available⟩,
      ⟨0x40c000, 40, .available⟩]).run ⟨[], ⟨0⟩, ⟨0⟩⟩ = .ok
      ⟨[⟨⟨0x400000⟩, 0xb000, .free⟩], [], some ⟨⟨0x40c000⟩, 40, .free⟩, 0,
        ⟨⟨0x400000⟩, 0xc028⟩, false⟩
      ⟨[⟨⟨0x400000⟩, 0xb000, .free⟩, ⟨⟨0x40c000⟩, 40, .free⟩], ⟨0x400000⟩, ⟨0x40c028⟩⟩ := by
    decide +kernel
  have hprep : (prepare fun _ => ⟨0⟩).run
      ⟨[⟨⟨0x400000⟩, 0xb000, .free⟩], [], some ⟨⟨0x40c000⟩, 40, .free⟩, 0,
        ⟨⟨0x400000⟩, 0xc028⟩, false⟩ = .ok
      ⟨List.replicate 13 ⟨0⟩, physicalRemap.start, ⟨⟨0x400000⟩, .small, by decide⟩,
        ⟨⟨List.replicate 32 Buddy.reserved, physicalRemap.start, 5, 1⟩, 4⟩⟩
      ⟨[⟨⟨0x400020⟩, 0xafe0, .free⟩],
        [⟨⟨0x400000⟩, 32, .reserved⟩, ⟨⟨0x40c000⟩, 40, .free⟩], none, 32,
        ⟨⟨0x400000⟩, 0xc028⟩, false⟩ := by
    decide +kernel
  exact ⟨_, _, _, _, _, hinit, hprep, spread_singleton _ _, ⟨by decide, by decide⟩,
    ⟨by decide, by decide⟩⟩

/-- A page and then eight pages from a new record. -/
def oneThenEight : Code MemblockSystem (Option (PageRange uma) × Option (PageRange uma)) := do
  let r ← new fun _ => ⟨0⟩
  let (one, r) ← Code.locally r (allocatePages 1 .small)
  let (eight, _) ← Code.locally r (allocatePages 8 .small)
  return (one, eight)

/-- Three areas that are not spread: the frames of the last one begin at frame 7, and the row
of eight frames it marks is rounded down to frame 0, which the first area has.  That page is
taken, and then once more as the first of eight. -/
theorem frame_handed_out_twice : ∃ m m₁ b b',
    (MemblockSystem.init ⟨0x200000⟩ [⟨0x200000, 0x1000, .available⟩,
      ⟨0x202000, 0x1000, .available⟩, ⟨0x206000, 0x18000, .available⟩]).run b = .ok m b' ∧
    oneThenEight.run m = .ok (some ⟨⟨⟨0x200000⟩, .small, by decide⟩, 1⟩,
      some ⟨⟨⟨0x200000⟩, .small, by decide⟩, 8⟩) m₁ := by
  have hinit : (MemblockSystem.init ⟨0x200000⟩ [⟨0x200000, 0x1000, .available⟩,
      ⟨0x202000, 0x1000, .available⟩, ⟨0x206000, 0x18000, .available⟩]).run ⟨[], ⟨0⟩, ⟨0⟩⟩ = .ok
      ⟨[⟨⟨0x200000⟩, 0x1000, .free⟩, ⟨⟨0x202000⟩, 0x1000, .free⟩], [],
        some ⟨⟨0x206000⟩, 0x18000, .free⟩, 0, ⟨⟨0x200000⟩, 0x1e000⟩, false⟩
      ⟨[⟨⟨0x200000⟩, 0x1000, .free⟩, ⟨⟨0x202000⟩, 0x1000, .free⟩,
        ⟨⟨0x206000⟩, 0x18000, .free⟩], ⟨0x200000⟩, ⟨0x21e000⟩⟩ := by
    decide +kernel
  have htake : oneThenEight.run ⟨[⟨⟨0x200000⟩, 0x1000, .free⟩, ⟨⟨0x202000⟩, 0x1000, .free⟩], [],
      some ⟨⟨0x206000⟩, 0x18000, .free⟩, 0, ⟨⟨0x200000⟩, 0x1e000⟩, false⟩ = .ok
      (some ⟨⟨⟨0x200000⟩, .small, by decide⟩, 1⟩, some ⟨⟨⟨0x200000⟩, .small, by decide⟩, 8⟩)
      ⟨[⟨⟨0x200000⟩, 0x1000, .free⟩, ⟨⟨0x202000⟩, 0x1000, .free⟩,
        ⟨⟨0x20607c⟩, 0x17f84, .free⟩], [⟨⟨0x206000⟩, 124, .reserved⟩], none, 124,
        ⟨⟨0x200000⟩, 0x1e000⟩, false⟩ := by
    decide +kernel
  exact ⟨_, _, _, _, hinit, htake⟩

end PhysicalMemoryRecord

end Koe
