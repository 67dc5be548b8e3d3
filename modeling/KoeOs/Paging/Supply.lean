/-
# `KoeOs.Paging.Supply` — page tables built from the blocks of an allocator

The tables of a map are static tables of the kernel, or blocks the page allocator has handed
out.  The allocator says which blocks are out (`PhysMem.Lawful`), and so which frames are in
use:

    Held out t      `t` is the start of a block that is out
    Taken st out t  `t` is held, or lies in the kernel image

An allocator that hands out blocks (`Supplies`) hands out none that is in use, so what it
promised to the walker (`HandsFresh`) follows for every tree of tables in use (`Half`).
`map` and `new` then keep such trees.  What no allocator promises is that a frame is empty
(`HandsZero`).
-/
import KoeOs.Paging.Mapping
import KoeOs.Paging.Init

namespace Koe

open TableTree

variable {π : Type} {Out : π → List Extent → Prop} {p p' : π} {out : List Extent} {fs : List ℕ}
  {t : ℕ} {st : Statics} {alloc : FrameAlloc π} {pm : PhysMem π}

/-! ## Frames in use -/

/-- `t` is the start of a block that is out. -/
def Held (out : List Extent) (t : ℕ) : Prop := ∃ e ∈ out, e.base = t ∧ tableAlignment ≤ e.size

/-- `t` is in the kernel image, or the start of a block that is out. -/
def Taken (st : Statics) (out : List Extent) (t : ℕ) : Prop :=
  t < Statics.frame st.kernelEnd ∨ Held out t

/-- The allocator hands out memory above the kernel only. -/
def AboveKernel (st : Statics) (Out : π → List Extent → Prop) : Prop :=
  ∀ p out, Out p out → ∀ e ∈ out, Statics.frame st.kernelEnd ≤ e.base

/-- What the allocator hands out for a table is a new block, of at least a frame. -/
def Supplies (alloc : FrameAlloc π) (Out : π → List Extent → Prop) : Prop :=
  ∀ p p' out range, Out p out → (alloc PageSize.small.layout).run p = .ok (some range) p' →
    ∃ size, tableAlignment ≤ size ∧ Out p' (⟨range.base.value, size⟩ :: out)

theorem Held.mono {bs : List Extent} (h : Held out t) : Held (bs ++ out) t := by
  obtain ⟨e, he, hbase⟩ := h
  exact ⟨e, List.mem_append_right _ he, hbase⟩

theorem Taken.mono {bs : List Extent} (h : Taken st out t) : Taken st (bs ++ out) t :=
  h.imp_right Held.mono

/-- `PageAllocator` is such an allocator. -/
theorem PageAllocator.supplies (hpm : pm.Lawful Out) :
    Supplies (PageAllocator.allocatePhys pm) Out := by
  intro p p' out range hout hrun
  have hsize : PageSize.small.layout.size ≠ 0 := by decide
  rcases PageAllocator.allocatePhys_run hpm hout hsize (by decide) with
    ⟨q, hnone, -⟩ | ⟨a, size, q, hsome, hout', hsize⟩
  · exact nomatch hnone.symm.trans hrun
  · cases hsome.symm.trans hrun
    exact ⟨size, hsize, hout'⟩

/-- The blocks of the frames that were handed out. -/
theorem Supplies.blocks (h : Supplies alloc Out) (hout : Out p out) (hh : Hands alloc p fs p') :
    ∃ bs : List Extent, Out p' (bs ++ out) ∧ bs.map Extent.base = fs.reverse ∧
      ∀ b ∈ bs, tableAlignment ≤ b.size := by
  induction hh with
  | nil => exact ⟨[], hout, rfl, fun _ hb => nomatch hb⟩
  | snoc _ hrun ih =>
      obtain ⟨bs, hbs, hmap, hsize⟩ := ih
      obtain ⟨size, hle, hout'⟩ := h _ _ _ _ hbs hrun
      refine ⟨_ :: bs, hout', ?_, List.forall_mem_cons.mpr ⟨hle, hsize⟩⟩
      rw [List.map_cons, hmap, List.reverse_append]
      rfl

/-- New blocks begin where nothing is in use. -/
theorem not_taken_of_new (hpm : pm.Lawful Out) (habove : AboveKernel st Out) {bs : List Extent}
    (hout : Out p (bs ++ out)) {b : Extent} (hb : b ∈ bs) : ¬ Taken st out b.base := by
  have hmem : b ∈ bs ++ out := List.mem_append_left _ hb
  rintro (hlt | ⟨e, he, hbase, hsize⟩)
  · exact absurd (habove _ _ hout b hmem) (Nat.not_le.mpr hlt)
  · have hdisj := (List.pairwise_append.mp (hpm.disjoint hout)).2.2 b hb e he
    have hpos := (hpm.pages hout b hmem).2.1
    exact hdisj.base_ne hpos (Nat.lt_of_lt_of_le (by decide) hsize) hbase.symm

theorem Supplies.fresh (h : Supplies alloc Out) (hpm : pm.Lawful Out)
    (habove : AboveKernel st Out) (hout : Out p out) (hh : Hands alloc p fs p') :
    fs.Nodup ∧ ∀ f ∈ fs, IsFrame f ∧ ¬ Taken st out f := by
  obtain ⟨bs, hbs, hmap, hsize⟩ := h.blocks hout hh
  have hpages := hpm.pages hbs
  constructor
  · rw [← List.nodup_reverse, ← hmap]
    have hdisj := (List.pairwise_append.mp (hpm.disjoint hbs)).1
    refine List.pairwise_map.mpr (hdisj.imp_of_mem fun {b c} hb hc hbc => ?_)
    exact hbc.base_ne (hpages b (List.mem_append_left _ hb)).2.1
      (hpages c (List.mem_append_left _ hc)).2.1
  · intro f hf
    rw [← List.mem_reverse, ← hmap] at hf
    obtain ⟨b, hb, rfl⟩ := List.mem_map.mp hf
    obtain ⟨hdvd, hpos, hend⟩ := hpages b (List.mem_append_left _ hb)
    exact ⟨⟨hdvd, by omega⟩, not_taken_of_new hpm habove hbs hb⟩

/-! ## Trees of tables in use -/

/-- The ways of `K` form a tree of tables in use, inside physical memory. -/
structure Half (st : Statics) (out : List Extent) (tables : Tables) (root : ℕ)
    (K : Set (ℕ → Fin tableLen)) : Prop where
  apart : Apart next tables root K
  inside : Inside tables root K
  taken : ∀ k ∈ K, ∀ d t, tableAt next tables root k d = some t → Taken st out t

namespace Half

variable {tables tables' : Tables} {root root' : ℕ} {K : Set (ℕ → Fin tableLen)}

/-- Blocks that are given out or taken back elsewhere do not matter. -/
theorem mono {out' : List Extent} (h : Half st out tables root K)
    (hout : ∀ k ∈ K, ∀ d t, tableAt next tables root k d = some t → Taken st out t →
      Taken st out' t) : Half st out' tables root K :=
  ⟨h.apart, h.inside, fun k hk d t ht => hout k hk d t ht (h.taken k hk d t ht)⟩

/-- The frame rule: writes to other tables do not matter. -/
theorem frame (h : Half st out tables root K)
    (hsame : ∀ k ∈ K, ∀ d t, tableAt next tables root k d = some t → tables' t = tables t) :
    Half st out tables' root K where
  apart := h.apart.of_le fun k hk _ _ ht => (tableAt_frame (hsame k hk)).symm.trans ht
  inside k hk d e he := h.inside k hk d e ((entryAt_frame (hsame k hk)).symm.trans he)
  taken k hk d t ht := h.taken k hk d t ((tableAt_frame (hsame k hk)).symm.trans ht)

/-- The same tree under another root. -/
theorem of_root (h : Half st out tables root K) (htaken : Taken st out root')
    (hsame : ∀ k ∈ K, tables root (k 0) = tables root' (k 0))
    (hoff : ∀ k ∈ K, ∀ d, tableAt next tables root k (d + 1) ≠ some root') :
    Half st out tables root' K where
  apart := h.apart.of_root hsame hoff
  inside k hk d e he := h.inside k hk d e ((entryAt_root (hsame k hk)).trans he)
  taken k hk d t ht := by
    cases d with
    | zero => cases ht; exact htaken
    | succ d => exact h.taken k hk (d + 1) t ((tableAt_root (hsame k hk)).trans ht)

/-- No frame that the allocator hands out is in the tree. -/
theorem handsFresh (h : Half st out tables root K) (hpm : pm.Lawful Out)
    (habove : AboveKernel st Out) (hs : Supplies alloc Out) (hout : Out p out) (n : ℕ) :
    HandsFresh alloc p n tables root K := by
  intro fs p' hh _
  obtain ⟨hnodup, hfs⟩ := hs.fresh hpm habove hout hh
  exact ⟨hnodup, fun f hf => ⟨(hfs f hf).1, fun k hk d ht => (hfs f hf).2 (h.taken k hk d f ht)⟩⟩

end Half

/-! ## `map` in such a tree -/

namespace MemoryMap

namespace Maps

variable {S : AddrSpace} {s s' : Machine π} {vpage : PageAddr S} {ppage : PageAddr uma}
  {flags : List Flag} {K : Set (ℕ → Fin tableLen)} {tables : Tables} {raw : ℕ}
  (h : Maps alloc s K vpage ppage flags fs tables t raw s')
include h

/-- The entry of the page is as it was, or leads nowhere. -/
theorem same_or_leaf (hal : vpage.pageSize.align ∣ ppage.base.value)
    (hp : ppage.base.value < uma.stop) :
    s'.tables = tables ∨ next vpage.pageSize.depth raw = none := by
  rcases h.written with ⟨-, rfl | rfl⟩ | ⟨hflags, rfl⟩
  · exact .inl (h.tables_eq.trans set_eq_self)
  · exact .inr (next_zero _)
  · exact .inr (hflags.next_pageWord hal hp)

section Page

variable (hal : vpage.pageSize.align ∣ ppage.base.value) (hp : ppage.base.value < uma.stop)
  (hk : key vpage.base.value ∈ K)
include hal hp hk

/-- `map` makes no ways but those of the grown tree. -/
theorem tableAt_grown {k : ℕ → Fin tableLen} (hk' : k ∈ K) {d u : ℕ}
    (hu : tableAt next s'.tables (Entry.field s.cr3) k d = some u) :
    tableAt next tables (Entry.field s.cr3) k d = some u := by
  rcases h.same_or_leaf hal hp with hsame | hleaf
  · rw [← hsame]
    exact hu
  · rw [h.tables_eq] at hu
    exact tableAt_of_set_leaf h.growth.apart hk h.table hleaf hk' hu

/-- The tables after `map` are the old ones, and the frames that were taken. -/
theorem tableAt_cases {k : ℕ → Fin tableLen} (hk' : k ∈ K) {d u : ℕ}
    (hu : tableAt next s'.tables (Entry.field s.cr3) k d = some u) :
    tableAt next s.tables (Entry.field s.cr3) k d = some u ∨ u ∈ fs :=
  h.growth.tables k hk' d u (h.tableAt_grown hal hp hk hk' hu)

theorem apart : Apart next s'.tables (Entry.field s.cr3) K :=
  h.growth.apart.of_le fun _ hk' _ _ hu => h.tableAt_grown hal hp hk hk' hu

theorem inside_of (hin : Inside s.tables (Entry.field s.cr3) K) (hfs : ∀ f ∈ fs, IsFrame f) :
    Inside s'.tables (Entry.field s.cr3) K := by
  have hgrown := hin.growth h.growth hfs
  rcases h.same_or_leaf hal hp with hsame | hleaf
  · rw [hsame]
    exact hgrown
  · rw [← h.cr3_eq]
    refine h.inside hk hleaf hin hfs ?_
    rcases h.written with ⟨-, rfl | rfl⟩ | ⟨hflags, rfl⟩
    · exact hgrown _ hk _ _ (entryAt_of_table h.table)
    · exact inSpace_zero _
    · exact hflags.inSpace_pageWord hal hp

theorem half {out' : List Extent} (hhalf : Half st out s.tables (Entry.field s.cr3) K)
    (hfs : ∀ f ∈ fs, IsFrame f ∧ Taken st out' f) (hout : ∀ u, Taken st out u → Taken st out' u) :
    Half st out' s'.tables (Entry.field s.cr3) K where
  apart := h.apart hal hp hk
  inside := h.inside_of hal hp hk hhalf.inside fun f hf => (hfs f hf).1
  taken k hk' d u hu := by
    rcases h.tableAt_cases hal hp hk hk' hu with hold | hnew
    · exact hout u (hhalf.taken k hk' d u hold)
    · exact (hfs u hnew).2

omit hal hp in
/-- A table is only written where it is on the way of the page: at its end, or where there was
no next table. -/
theorem untouched {u : ℕ} (hu : u ∉ fs)
    (hon : ∀ j < vpage.pageSize.depth,
      tableAt next s.tables (Entry.field s.cr3) (key vpage.base.value) j = some u →
      next j (s.tables u (key vpage.base.value j)) ≠ none)
    (hend : tableAt next s.tables (Entry.field s.cr3) (key vpage.base.value) vpage.pageSize.depth
      ≠ some u) : s'.tables u = s.tables u := by
  have htu : u ≠ t := by
    rintro rfl
    rcases h.growth.tables _ hk _ _ h.table with hold | hnew
    · exact hend hold
    · exact hu hnew
  rw [h.tables_eq, set_table_of_ne htu, h.growth.untouched u hu hon]

end Page

end Maps

/-- What a call of `map` that returns has done to a tree of tables in use. -/
theorem map_half {S : AddrSpace} {s s' : Machine π} {vpage : PageAddr S} {ppage : PageAddr uma}
    {flags : List Flag} {K : Set (ℕ → Fin tableLen)} {res : Option Unit} (hpm : pm.Lawful Out)
    (habove : AboveKernel st Out) (hs : Supplies alloc Out) (hout : Out s.phys out)
    (hhalf : Half st out s.tables (Entry.field s.cr3) K) (hk : key vpage.base.value ∈ K)
    (hcr3 : Entry.field s.cr3 < uma.stop)
    (hflags : .present ∈ flags → vpage.pageSize ≠ .small → .pageSize ∈ flags)
    (hzero : HandsZero alloc s.phys (missing next s.tables (Entry.field s.cr3)
      (key vpage.base.value) vpage.pageSize.depth) s.tables)
    (hrun : (map alloc vpage ppage flags).run s = .ok res s') :
    ∃ fs tables t raw bs, Maps alloc s K vpage ppage flags fs tables t raw s' ∧
      vpage.pageSize.align ∣ ppage.base.value ∧ fs.Nodup ∧
      (∀ f ∈ fs, IsFrame f ∧ ¬ Taken st out f ∧ Held (bs ++ out) f) ∧ Out s'.phys (bs ++ out) := by
  obtain ⟨_, _, hassert, -⟩ := Code.bind_eq_ok.mp hrun
  have hsize : vpage.pageSize = ppage.pageSize := beq_iff_eq.mp (Code.assert_eq_ok.mp hassert).1
  have hal : vpage.pageSize.align ∣ ppage.base.value := hsize ▸ ppage.aligned
  have hblank := (hhalf.handsFresh hpm habove hs hout _).blank hzero
  rcases map_cases hsize hflags hk hcr3 hhalf.apart hhalf.inside hblank with
    ⟨fs, tables, t, raw, s₁, hmaps, hrun₁⟩ | ⟨-, q, s₁, hrun₁⟩
  · cases hrun.symm.trans hrun₁
    obtain ⟨bs, hbs, hmap, hle⟩ := hs.blocks hout hmaps.hands
    obtain ⟨hnodup, hfresh⟩ := hs.fresh hpm habove hout hmaps.hands
    refine ⟨fs, tables, t, raw, bs, hmaps, hal, hnodup, fun f hf => ?_, hbs⟩
    obtain ⟨b, hb, rfl⟩ : ∃ b ∈ bs, b.base = f := by
      rw [← List.mem_map, hmap, List.mem_reverse]
      exact hf
    exact ⟨(hfresh _ hf).1, (hfresh _ hf).2, b, List.mem_append_left _ hb, rfl, hle b hb⟩
  · exact nomatch hrun.symm.trans hrun₁

/-- `map` returns, unless the allocator fails. -/
theorem exists_map {S : AddrSpace} {s : Machine π} {vpage : PageAddr S} {ppage : PageAddr uma}
    {flags : List Flag} {K : Set (ℕ → Fin tableLen)} (hpm : pm.Lawful Out)
    (habove : AboveKernel st Out) (hs : Supplies alloc Out) (hout : Out s.phys out)
    (hhalf : Half st out s.tables (Entry.field s.cr3) K) (hk : key vpage.base.value ∈ K)
    (hcr3 : Entry.field s.cr3 < uma.stop) (hsize : vpage.pageSize = ppage.pageSize)
    (hflags : .present ∈ flags → vpage.pageSize ≠ .small → .pageSize ∈ flags)
    (hzero : HandsZero alloc s.phys (missing next s.tables (Entry.field s.cr3)
      (key vpage.base.value) vpage.pageSize.depth) s.tables)
    (hfull : ¬ FailsBefore alloc s.phys (missing next s.tables (Entry.field s.cr3)
      (key vpage.base.value) vpage.pageSize.depth)) :
    ∃ s', (map alloc vpage ppage flags).run s = .ok (some ()) s' := by
  have hblank := (hhalf.handsFresh hpm habove hs hout _).blank hzero
  rcases map_cases hsize hflags hk hcr3 hhalf.apart hhalf.inside hblank with
    ⟨_, _, _, _, s', -, hrun⟩ | ⟨hfails, -⟩
  · exact ⟨s', hrun⟩
  · exact absurd hfails hfull

/-! ## `new` -/

theorem table_run {s : Machine π} (hcr3 : Entry.field s.cr3 < uma.stop) :
    (table : Code (Machine π) (Addr uma)).run s = .ok ⟨Entry.field s.cr3⟩ s := by
  rw [table]
  refine (Code.bind_ok (LinearWalker.target_ofMap hcr3)).trans ?_
  exact Code.bind_ok (PageAllocator.p2v_run hcr3 s)

/-- The tables after `new` has built the table `a` in a block of `size` bytes. -/
def newTables (tables : Tables) (a size cur : ℕ) : Tables :=
  withKernelHalf (zeroed tables ⟨a, size⟩) a cur

theorem new_run {s : Machine π} {a size : ℕ} (hcr3 : Entry.field s.cr3 < uma.stop)
    (hframe : IsFrame a)
    (halloc : (PageAllocator.allocatePhys pm PageSize.small.layout).run s.phys
      = .ok (some ⟨⟨a⟩, size⟩) p) :
    (new pm).run s = .ok ⟨a, [a]⟩
      { s with tables := newTables s.tables a size (Entry.field s.cr3), phys := p } := by
  have hstart : physicalRemap.start = 0xFFFF888000000000 := rfl
  have hstop : physicalRemap.stop = 0xFFFFC88000000000 := rfl
  have huma : uma.stop = 2 ^ 46 := rfl
  have hlt := hframe.2
  have hmem : physicalRemap.start ≤ a + physicalRemap.start ∧
      a + physicalRemap.start < physicalRemap.stop := ⟨Nat.le_add_left _ _, by omega⟩
  have hsome : (PageAllocator.allocate pm PageSize.small.layout).run s.phys
      = .ok (some ⟨a + physicalRemap.start, size⟩) p := by
    rw [PageAllocator.allocate, show allocateIfZst PageSize.small.layout = none from rfl]
    refine (Code.bind_ok halloc).trans ?_
    exact Code.bind_ok (PageAllocator.p2v_run (a := ⟨a⟩) hframe.2 p)
  rw [new, Code.bind_ok (Machine.onPhys_ok hsome), Code.bind_ok (Code.expect_some _ _ _),
    Code.bind_ok (EStateM.run_modify ..), Code.bind_ok (Addr.new_of_mem hmem _),
    Code.bind_ok (PageAllocator.v2p_run hframe.2 _), Nat.add_sub_cancel]
  refine (Code.bind_ok (table_run (s := { s with
    tables := zeroed s.tables ⟨a, size⟩, phys := p }) hcr3)).trans ?_
  refine (Code.bind_ok (EStateM.run_modify ..)).trans ?_
  exact Code.bind_ok (Code.locally_ok (Entry.reinit_cr3 hframe.1 0))

/-- `new` takes a block, and nothing but the block is written. -/
theorem new_eq_ok (hpm : pm.Lawful Out) {s s' : Machine π} {m : MemoryMap}
    (hcr3 : Entry.field s.cr3 < uma.stop) (hout : Out s.phys out)
    (hrun : (new pm).run s = .ok m s') :
    ∃ a size p, m = ⟨a, [a]⟩ ∧ IsFrame a ∧ tableAlignment ≤ size ∧ Out p (⟨a, size⟩ :: out) ∧
      s' = { s with tables := newTables s.tables a size (Entry.field s.cr3), phys := p } := by
  have hsize : PageSize.small.layout.size ≠ 0 := by decide
  rcases PageAllocator.allocatePhys_run hpm hout hsize (by decide) with
    ⟨p, halloc, -⟩ | ⟨a, size, p, halloc, hout', hle⟩
  · have hnone : (PageAllocator.allocate pm PageSize.small.layout).run s.phys = .ok none p := by
      rw [PageAllocator.allocate, show allocateIfZst PageSize.small.layout = none from rfl]
      exact Code.bind_ok halloc
    rw [new, Code.bind_ok (Machine.onPhys_ok hnone)] at hrun
    cases hrun
  · obtain ⟨hdvd, hpos, hend⟩ := hpm.pages hout' _ List.mem_cons_self
    simp only at hdvd hpos hend
    have hframe : IsFrame a := ⟨hdvd, by omega⟩
    cases (new_run hcr3 hframe halloc).symm.trans hrun
    exact ⟨a, size, p, rfl, hframe, hle, hout', rfl⟩

theorem newTables_of_not_mem {tables : Tables} {a size cur : ℕ} (hsize : tableAlignment ≤ size)
    (ht : ¬ (a ≤ t ∧ t < a + size)) : newTables tables a size cur t = tables t := by
  have hne : t ≠ a := by
    rintro rfl
    simp only [tableAlignment] at hsize
    omega
  rw [newTables, withKernelHalf, Function.update_of_ne hne]
  funext i
  exact if_neg ht

theorem newTables_lower {tables : Tables} {a size cur : ℕ} (hsize : tableAlignment ≤ size)
    {i : Fin tableLen} (hi : i.val < 256) : newTables tables a size cur a i = 0 := by
  rw [newTables, withKernelHalf, Function.update_self, if_neg (Nat.not_le.mpr hi), zeroed]
  exact if_pos ⟨Nat.le_refl _, by simp only [tableAlignment] at hsize; simp only; omega⟩

theorem newTables_upper {tables : Tables} {a size cur : ℕ} (hcur : ¬ (a ≤ cur ∧ cur < a + size))
    {i : Fin tableLen} (hi : 256 ≤ i.val) : newTables tables a size cur a i = tables cur i := by
  rw [newTables, withKernelHalf, Function.update_self, if_pos hi, zeroed]
  exact if_neg hcur

end MemoryMap

/-- A new block holds nothing that is in use. -/
theorem Taken.not_mem_new (hpm : pm.Lawful Out) (habove : AboveKernel st Out) {b : Extent}
    (hout : Out p (b :: out)) (ht : Taken st out t) : ¬ (b.base ≤ t ∧ t < b.base + b.size) := by
  rintro ⟨hle, hlt⟩
  rcases ht with himage | ⟨e, he, rfl, hsize⟩
  · have := habove _ _ hout b List.mem_cons_self
    omega
  · refine List.rel_of_pairwise_cons (hpm.disjoint hout) he e.base ⟨hle, hlt⟩ ⟨Nat.le_refl _, ?_⟩
    exact Nat.lt_add_of_pos_right (Nat.lt_of_lt_of_le (by decide) hsize)

/-! ## A stack of pages -/

/-- The bytes of a page. -/
def stackPage (n : ℕ) : Extent := ⟨n * 4096, 4096⟩

/-- The range that is handed out for the page. -/
def stackRange (n : ℕ) : PageRange uma := ⟨⟨⟨n * 4096⟩, .small, Nat.dvd_mul_left _ _⟩, 1⟩

/-- An allocator of single pages; the numbers of the pages that are left are on a stack. -/
def stackMem : PhysMem (List ℕ) where
  allocatePages cnt _ := do
    match cnt, ← get with
    | 1, n :: ns =>
        set ns
        return some (stackRange n)
    | _, _ => return none
  deallocatePages r := modify (r.base.base.value / 4096 :: ·)

/-- The pages that are out, and those that are left, lie above 4 MiB. -/
def StackOut (p : List ℕ) (out : List Extent) : Prop :=
  ∃ used, out = used.map stackPage ∧ (used ++ p).Nodup ∧
    ∀ n ∈ used ++ p, 0x400 ≤ n ∧ n < 2 ^ 34

theorem stackRange_extent (n : ℕ) : (stackRange n).extent = stackPage n := by
  have husize : (stackRange n).base.pageSize.usize = 4096 := rfl
  rw [PageRange.extent, stackPage, husize]
  exact Extent.ext rfl (Nat.one_mul 4096)

theorem stackPage_injective : Function.Injective stackPage := fun n n' h => by
  have := congrArg Extent.base h
  simp only [stackPage] at this
  omega

/-- A single page is taken from the stack, if there is one. -/
theorem stackMem_cases (cnt : ℕ) (size : PageSize) (p : List ℕ) :
    (∃ n ns, cnt = 1 ∧ p = n :: ns ∧
      (stackMem.allocatePages cnt size).run p = .ok (some (stackRange n)) ns) ∨
    (stackMem.allocatePages cnt size).run p = .ok none p := by
  rcases cnt with _ | _ | cnt
  · exact .inr rfl
  · cases p with
    | nil => exact .inr rfl
    | cons n ns => exact .inl ⟨n, ns, rfl, rfl, rfl⟩
  · exact .inr rfl

theorem stackMem_lawful : stackMem.Lawful StackOut where
  disjoint := by
    rintro p _ ⟨used, rfl, hnodup, -⟩
    refine List.pairwise_map.mpr ((List.nodup_append.mp hnodup).1.imp ?_)
    intro n n' hne x hx hx'
    simp only [Extent.Contains, stackPage] at hx hx'
    omega
  pages := by
    rintro p _ ⟨used, rfl, -, hmem⟩ e he
    obtain ⟨n, hn, rfl⟩ := List.mem_map.mp he
    have hlt := (hmem n (List.mem_append_left _ hn)).2
    have huma : uma.stop = 2 ^ 46 := rfl
    simp only [stackPage]
    omega
  returns := by
    intro p out cnt _ _
    rcases stackMem_cases cnt .small p with ⟨n, ns, -, -, hrun⟩ | hrun
    · exact ⟨_, _, hrun⟩
    · exact ⟨_, _, hrun⟩
  none := by
    intro p p' out cnt hout hrun
    rcases stackMem_cases cnt .small p with ⟨n, ns, -, -, hsome⟩ | hnone
    · cases hsome.symm.trans hrun
    · cases hnone.symm.trans hrun
      exact hout
  some := by
    intro p p' out cnt r hout hrun
    rcases stackMem_cases cnt .small p with ⟨n, ns, rfl, rfl, hsome⟩ | hnone
    · cases hsome.symm.trans hrun
      obtain ⟨used, rfl, hnodup, hmem⟩ := hout
      have hperm : (used ++ n :: p').Perm (n :: used ++ p') := List.perm_middle
      rw [stackRange_extent]
      exact ⟨⟨n :: used, rfl, hperm.nodup hnodup, fun n' hn' => hmem n' (hperm.mem_iff.mpr hn')⟩,
        Nat.le_refl 1, rfl⟩
    · cases hnone.symm.trans hrun
  free := by
    rintro p _ e r ⟨used, rfl, hnodup, hmem⟩ he hr
    obtain ⟨n, hn, rfl⟩ := List.mem_map.mp he
    have hdiv : r.base.base.value / 4096 = n := by
      rw [hr]
      exact Nat.mul_div_cancel n (by decide)
    have hperm : (used ++ p).Perm (used.erase n ++ n :: p) :=
      ((List.perm_cons_erase hn).append_right p).trans List.perm_middle.symm
    refine ⟨n :: p, by rw [← hdiv]; rfl, used.erase n, ?_, hperm.nodup hnodup, fun n' hn' =>
      hmem n' (hperm.mem_iff.mpr hn')⟩
    exact (List.map_erase stackPage_injective used).symm

theorem StackOut.start {p : List ℕ} (hnodup : p.Nodup) (h : ∀ n ∈ p, 0x400 ≤ n ∧ n < 2 ^ 34) :
    StackOut p [] := ⟨[], rfl, hnodup, h⟩

theorem stackMem_run (n : ℕ) (ns : List ℕ) :
    (PageAllocator.allocatePhys stackMem PageSize.small.layout).run (n :: ns)
      = .ok (some ⟨⟨n * 4096⟩, 4096⟩) ns := by
  have hpages : (stackMem.allocatePages 1 .small).run (n :: ns)
      = .ok (some (stackRange n)) ns := rfl
  have husize : (stackRange n).base.pageSize.usize = 4096 := rfl
  have hrange : ((stackRange n).toAddrRange : Code (List ℕ) (AddrRange uma)).run ns
      = .ok ⟨⟨n * 4096⟩, 4096⟩ ns := by
    rw [PageRange.toAddrRange, husize]
    exact Code.bind_ok (Usize.mul_of_lt (a := 1) (b := 4096) (by decide) ns)
  rw [PageAllocator.allocatePhys_eq (by decide) (by decide)]
  refine (Code.bind_ok hpages).trans ?_
  refine (Code.bind_ok (Code.assert_of rfl _ ns)).trans ?_
  refine (Code.bind_ok (Code.assert_of rfl _ ns)).trans ?_
  exact Code.bind_ok hrange

theorem stackMem_some {p p' : List ℕ} {range : AddrRange uma}
    (h : (PageAllocator.allocatePhys stackMem PageSize.small.layout).run p
      = .ok (some range) p') : ∃ n, p = n :: p' ∧ range.base.value = n * 4096 := by
  cases p with
  | nil =>
      rw [PageAllocator.allocatePhys_eq (by decide) (by decide)] at h
      exact nomatch h
  | cons n ns =>
      cases (stackMem_run n ns).symm.trans h
      exact ⟨n, rfl, rfl⟩

/-- The frames that were handed out are the pages from the top of the stack. -/
theorem stackMem_hands {p p' fs : List ℕ}
    (h : Hands (PageAllocator.allocatePhys stackMem) p fs p') :
    ∃ ns, p = ns ++ p' ∧ fs = ns.map (· * 4096) := by
  induction h with
  | nil => exact ⟨[], rfl, rfl⟩
  | snoc _ hrun ih =>
      obtain ⟨ns, rfl, rfl⟩ := ih
      obtain ⟨n, rfl, hn⟩ := stackMem_some hrun
      exact ⟨ns ++ [n], by rw [List.append_assoc]; rfl, by rw [hn, List.map_append]; rfl⟩

theorem stackMem_not_fails {p : List ℕ} {n : ℕ} (hn : n ≤ p.length) :
    ¬ FailsBefore (PageAllocator.allocatePhys stackMem) p n := by
  rintro ⟨fs, p', h, hlt, hfail⟩
  obtain ⟨ns, rfl, rfl⟩ := stackMem_hands h
  cases p' with
  | nil =>
      rw [List.length_map] at hlt
      rw [List.append_nil] at hn
      omega
  | cons f p' => exact hfail _ _ (stackMem_run f p')

theorem stackMem_free {f : ℕ} (hf : IsFrame f) (p : List ℕ) :
    (PageAllocator.deallocate stackMem (f + physicalRemap.start) PageSize.small.layout).run p
      = .ok () (f / 4096 :: p) := by
  have hcnt : PageAllocator.cntOf PageSize.small.layout = 1 := rfl
  have hend : f + PageAllocator.cntOf PageSize.small.layout * 4096 ≤ uma.stop := by
    obtain ⟨⟨n, rfl⟩, hlt⟩ := hf
    simp only [tableAlignment, hcnt] at hlt ⊢
    have huma : uma.stop = 2 ^ 46 := rfl
    omega
  rw [PageAllocator.deallocate_eq hf.1 (by decide) hend]
  rfl

/-- A kernel of 4 MiB is below them. -/
theorem aboveKernel_stackOut : AboveKernel MemoryManager.fourMiB StackOut := by
  rintro p _ ⟨used, rfl, -, hmem⟩ e he
  obtain ⟨n, hn, rfl⟩ := List.mem_map.mp he
  have hle := (hmem n (List.mem_append_left _ hn)).1
  have hend : Statics.frame MemoryManager.fourMiB.kernelEnd = 0x400000 := by
    rw [Statics.frame_eq]
    rfl
  rw [hend, stackPage]
  simp only
  omega

end Koe
