/-
# `KoeOs.Mem.Kernel` — the heap and the address spaces over one allocator

Once `init` is done, two parts of the kernel take frames from the page allocator and give them
back, in any order:

    the heap             for its slabs, and for blocks of whole pages
    the address spaces   for their tables

Each was looked at as the only user of the allocator.  To one user, what the other has out is
just not there: the allocator stays lawful if some blocks are set aside (`Beside`), and so the
invariants of both hold side by side (`Kernel.Inv`).

The two also meet in memory.  The tables lie in the same frames as the heap, and whoever has a
block of the heap writes to it.  No such write reaches a table, since all blocks of the heap
lie in frames the heap has taken (`Inv.uses_mine`), and no frame is taken twice.

They share memory with the records of the page allocator as well.  Neither the heap nor a table
reaches into these if they own the memory they lie in (`not_inRecords_uses`,
`not_inRecords_table`), so every write to them is one of the allocator.

What has to be assumed besides is that frames for new tables are empty.  Nobody empties them, and
the heap leaves its bytes in the frames it gives back.
-/
import KoeOs.Mem.Init
import KoeOs.Paging.KernelHalf

namespace Koe

open TableTree

/-! ## Two users of one allocator -/

section Beside

variable {π : Type} {pm : PhysMem π} {Out : π → List Extent → Prop} {p : π}
  {out others : List Extent} {st : Statics} {a b : Extent}

/-- `out` is handed out beside `others`. -/
def Beside (Out : π → List Extent → Prop) (others : List Extent) (p : π) (out : List Extent) :
    Prop :=
  ∃ full, Out p full ∧ full.Perm (out ++ others)

theorem Beside.comm (h : Beside Out others p out) : Beside Out out p others := by
  obtain ⟨full, hfull, hperm⟩ := h
  exact ⟨full, hfull, hperm.trans List.perm_append_comm⟩

theorem Beside.pairwise (hpm : pm.Lawful Out) (h : Beside Out others p out) :
    (out ++ others).Pairwise Extent.Disjoint := by
  obtain ⟨full, hfull, hperm⟩ := h
  exact hperm.pairwise (hpm.disjoint hfull) Extent.Disjoint.symm

theorem Beside.disjoint (hpm : pm.Lawful Out) (h : Beside Out others p out) (ha : a ∈ out)
    (hb : b ∈ others) : a.Disjoint b :=
  (List.pairwise_append.mp (h.pairwise hpm)).2.2 a ha b hb

theorem Beside.mem (h : Beside Out others p out) (ha : a ∈ out) :
    ∃ full, Out p full ∧ a ∈ full := by
  obtain ⟨full, hfull, hperm⟩ := h
  exact ⟨full, hfull, hperm.mem_iff.mpr (List.mem_append_left _ ha)⟩

/-- The frame rule: an allocator is lawful to one user, whatever another one has out. -/
theorem PhysMem.Lawful.beside (hpm : pm.Lawful Out) (others : List Extent) :
    pm.Lawful (Beside Out others) where
  disjoint h := (List.pairwise_append.mp (h.pairwise hpm)).1
  pages h e he := by
    obtain ⟨full, hfull, hmem⟩ := h.mem he
    exact hpm.pages hfull e hmem
  returns h := by
    obtain ⟨full, hfull, -⟩ := h
    exact hpm.returns hfull
  none h hrun := by
    obtain ⟨full, hfull, hperm⟩ := h
    exact ⟨full, hpm.none hfull hrun, hperm⟩
  some h hrun := by
    obtain ⟨full, hfull, hperm⟩ := h
    obtain ⟨hout, hrest⟩ := hpm.some hfull hrun
    exact ⟨⟨_, hout, hperm.cons _⟩, hrest⟩
  free h he hbase := by
    obtain ⟨full, hfull, hperm⟩ := h
    have hmem := hperm.mem_iff.mpr (List.mem_append_left _ he)
    obtain ⟨p', hrun, hout⟩ := hpm.free hfull hmem hbase
    refine ⟨p', hrun, _, hout, ?_⟩
    rw [← List.erase_append_left _ he]
    exact hperm.erase _

theorem AboveKernel.beside (h : AboveKernel st Out) (others : List Extent) :
    AboveKernel st (Beside Out others) := by
  intro p out hout e he
  obtain ⟨full, hfull, hmem⟩ := hout.mem he
  exact h p full hfull e hmem

end Beside

/-- The first map owns its table, which is empty below the kernel's half. -/
theorem MemoryManager.Rounds.owned {st : Statics} {last : ℕ} {zeros tables : Tables}
    (h : Rounds st last 256 zeros tables) (hzero : Zeroed st zeros) (out : List Extent) :
    Owned st out tables [⟨st.pml4, []⟩] := by
  have hroot := MemoryMap.root_mk st.pml4_isFrame []
  have hempty : EmptyLower tables st.pml4 := fun i hi => by
    rw [h.pml4 i (by omega), hzero _ (.inl rfl)]
    exact Nat.zero_testBit 0
  refine Owned.cons ⟨by simp, .nil⟩ ⟨?_, ?_, List.nodup_nil, fun f => ?_, by simp⟩ (by simp)
  · rw [hroot]
    exact st.pml4_isFrame
  · rw [hroot]
    exact hempty.half (.inl st.pml4_lt)
  · rw [hroot, hempty.lower_iff]
    exact iff_of_false List.not_mem_nil fun hf => hf.2 hf.1 rfl

/-! ## The kernel's memory, and what is done with it -/

/-- The address spaces, with the caches of the heap. -/
structure Kernel (π : Type) extends World π where
  caches : Fin 8 → UntypedCache

/-- A page is mapped for a user.  New tables are empty frames of the allocator, and no table is
where the page goes. -/
structure World.UserCall {π : Type} (pm : PhysMem π) (w : World π) (m : MemoryMap) (c : MapCall)
    (alloc : FrameAlloc π) : Prop where
  lower : c.vpage.base.value < 2 ^ 47
  inside : c.ppage.base.value < uma.stop
  alloc_eq : alloc = PageAllocator.allocatePhys pm
  clean : w.Clean m c alloc
  vacant : w.Vacant m c

/-- More calls may be made. -/
theorem World.Step.mono {π : Type} {pm : PhysMem π} {w w' : World π}
    {mayMap mayMap' : World π → MemoryMap → MapCall → FrameAlloc π → Prop}
    {mayDrop : World π → MemoryMap → Prop} (h : Step pm mayMap mayDrop w w')
    (hmap : ∀ w m c alloc, mayMap w m c alloc → mayMap' w m c alloc) :
    Step pm mayMap' mayDrop w w' := by
  cases h with
  | new hmaps hrun => exact .new hmaps hrun
  | map hmaps hmay hrun => exact .map hmaps (hmap _ _ _ _ hmay) hrun
  | swap hmaps => exact .swap hmaps
  | drop hmaps hmay hrun => exact .drop hmaps hmay hrun

namespace Kernel

variable {π : Type} {pm : PhysMem π}

/-- The part the heap works on. -/
def heap (s : Kernel π) : Heap π := ⟨s.phys, s.caches⟩

/-- With the heap as some code has left it. -/
def withHeap (s : Kernel π) (h : Heap π) : Kernel π :=
  { s with phys := h.phys, caches := h.caches }

/-- The heap has the byte at physical address `x`, in a block that is out or in a slab. -/
def Uses (s : Kernel π) (live : List Allocation) (x : ℕ) : Prop :=
  (∃ l ∈ live, l.bytes.Contains (x + physicalRemap.start)) ∨
    ∃ i, ∃ slab ∈ (s.caches i).slabs,
      (⟨slab.addr, 4096⟩ : Extent).Contains (x + physicalRemap.start)

/-- Only words that the heap has a byte of are written. -/
def WritesHeap (s : Kernel π) (live : List Allocation) (tables : Tables) : Prop :=
  ∀ t (i : Fin tableLen),
    (∀ x, (⟨t + 8 * i.val, 8⟩ : Extent).Contains x → ¬ s.Uses live x) →
      tables t i = s.tables t i

/-- A run from `s₀`, with the blocks of the heap that are out: calls of the heap, writes to its
memory, and operations on the address spaces, in any order.  The map with the table `pml4`,
which is a static, is not dropped. -/
inductive Run (pm : PhysMem π) (pml4 : ℕ) (s₀ : Kernel π) :
    List Allocation → Kernel π → Prop
  | start : Run pm pml4 s₀ [] s₀
  | allocate {live : List Allocation} {s : Kernel π} {h : Heap π} {layout : Layout}
      {res : Option Extent} (before : Run pm pml4 s₀ live s) (size : layout.size ≠ 0)
      (align : layout.align ≤ 4096)
      (run : (GlobalAllocator.allocate pm layout).run s.heap = .ok res h) :
      Run pm pml4 s₀ (Allocation.after layout live res) (s.withHeap h)
  | deallocate {live : List Allocation} {s : Kernel π} {h : Heap π} {l : Allocation}
      (before : Run pm pml4 s₀ live s) (mem : l ∈ live)
      (run : (GlobalAllocator.deallocate pm l.bytes.base l.layout).run s.heap = .ok () h) :
      Run pm pml4 s₀ (live.erase l) (s.withHeap h)
  | write {live : List Allocation} {s : Kernel π} {tables : Tables}
      (before : Run pm pml4 s₀ live s) (only : s.WritesHeap live tables) :
      Run pm pml4 s₀ live { s with tables }
  | space {live : List Allocation} {s : Kernel π} {w : World π} (before : Run pm pml4 s₀ live s)
      (step : World.Step pm (World.UserCall pm) (fun _ m => m.root ≠ pml4) s.toWorld w) :
      Run pm pml4 s₀ live { s with toWorld := w }

/-! ## The invariant -/

variable {Out : π → List Extent → Prop} {st : Statics} {last : ℕ} {zeros tables₀ : Tables}
  {s : Kernel π} {w : World π} {live : List Allocation} {k : Stock} {out theirs : List Extent}

/-- The heap has its blocks beside `theirs`, the frames of the tables; and the kernel's half of
the maps is that of `tables₀`. -/
structure Inv (st : Statics) (Out : π → List Extent → Prop) (tables₀ : Tables) (s : Kernel π)
    (live : List Allocation) (k : Stock) (out theirs : List Extent) : Prop where
  heap : s.heap.Inv (Beside Out theirs) live k out
  owned : Owned st theirs s.tables s.maps
  seen : Seen st tables₀ s.tables s.maps

namespace Inv

variable (h : Inv st Out tables₀ s live k out theirs) {x f t : ℕ} {m : MemoryMap} {l : Allocation}
include h

/-- What the heap has lies in its blocks. -/
theorem uses_mine (hx : s.Uses live x) :
    ∃ mine, Beside Out theirs s.phys mine ∧ ∃ e ∈ mine, e.Contains x := by
  obtain ⟨mine, hmine, hout⟩ := h.heap.mapped
  have hmem : ∀ e ∈ out, e.Contains (x + physicalRemap.start) → ∃ e ∈ mine, e.Contains x := by
    intro e he hx
    rw [hout] at he
    obtain ⟨e', he', rfl⟩ := List.mem_map.mp he
    simp only [Extent.Contains, Extent.shift] at hx
    exact ⟨e', he', by omega, by omega⟩
  refine ⟨mine, hmine, ?_⟩
  rcases hx with ⟨l, hl, hx⟩ | ⟨i, slab, hslab, hx⟩
  · obtain ⟨e, he, -, hin⟩ := h.heap.home hl
    exact hmem e he (hin _ hx)
  · obtain ⟨e, he, hbase, hsize⟩ := h.heap.stock.page i _ (h.heap.slab_page hslab)
    simp only [Extent.Contains] at hx
    exact hmem e he ⟨by omega, by omega⟩

/-- A map can be dropped, and gives back its frames. -/
theorem drop_run (hpm : pm.Lawful Out) (hm : m ∈ s.maps) (hne : m.root ≠ st.pml4) :
    ∃ s' fs, (MemoryMap.drop pm).run (s.machine m) = .ok () s' ∧ s'.freed = s.freed ++ fs ∧
      fs.Perm m.frames := by
  obtain ⟨mine, hmine, -⟩ := h.heap.mapped
  obtain ⟨l, l', hmaps⟩ := List.append_of_mem hm
  have hfirst : Owned st theirs s.tables (m :: (l ++ l')) :=
    h.owned.perm (hmaps ▸ List.perm_middle)
  obtain ⟨p, out', hdrop, hperm, -, -⟩ :=
    hfirst.drop (hpm.beside mine) (s := s.machine m) rfl rfl hmine.comm hne
  exact ⟨_, _, hdrop, rfl, hperm⟩

section Lawful

variable (hpm : pm.Lawful Out) (habove : AboveKernel st Out)
include habove

/-- The heap has nothing of the kernel. -/
theorem not_uses_image (hx : x < Statics.frame st.kernelEnd) : ¬ s.Uses live x := by
  intro huses
  obtain ⟨mine, hmine, e, he, hcontains⟩ := h.uses_mine huses
  have hle := habove.beside theirs _ _ hmine e he
  exact absurd (hle.trans hcontains.1) (Nat.not_le.mpr hx)

variable (hal : tableAlignment ∣ Statics.frame st.kernelEnd)
include hal

/-- A frame of the kernel image lies in it as a whole. -/
theorem not_uses_static (hframe : IsFrame t) (ht : t < Statics.frame st.kernelEnd)
    (hx : x < t + tableAlignment) : ¬ s.Uses live x := by
  refine h.not_uses_image habove (Nat.lt_of_lt_of_le hx ?_)
  obtain ⟨q, rfl⟩ := hframe.1
  obtain ⟨r, hr⟩ := hal
  rw [hr] at ht ⊢
  rw [← Nat.mul_succ]
  exact Nat.mul_le_mul_left _ (Nat.lt_of_mul_lt_mul_left ht)

include hpm

/-- The heap has nothing of a table. -/
theorem not_uses_table (hm : m ∈ s.maps) (hf : Lower s.tables m.root f)
    (hx : (⟨f, tableAlignment⟩ : Extent).Contains x) : ¬ s.Uses live x := by
  have hown := h.owned.each m hm
  rcases hown.lower_cases hf with ⟨rfl, hpml4⟩ | ⟨e, he, rfl, hsize⟩
  · exact h.not_uses_static habove hal hown.isFrame (hpml4 ▸ st.pml4_lt) hx.2
  · intro huses
    obtain ⟨mine, hmine, e', he', hcontains⟩ := h.uses_mine huses
    exact hmine.disjoint hpm he' he x hcontains ⟨hx.1, hx.2.trans_le (Nat.add_le_add_left hsize _)⟩

/-- A write to the heap is none to a table. -/
theorem write {tables : Tables} (honly : s.WritesHeap live tables) :
    Inv st Out tables₀ { s with tables } live k out theirs := by
  -- the words of a table the heap has nothing of
  have hsame : ∀ t, (∀ x, (⟨t, tableAlignment⟩ : Extent).Contains x → ¬ s.Uses live x) →
      tables t = s.tables t := fun t ht => by
    funext i
    refine honly t i fun x hx => ht x ?_
    have hi : i.val < 512 := i.isLt
    simp only [Extent.Contains, tableAlignment] at hx ⊢
    omega
  have hlower : ∀ m ∈ s.maps, ∀ f, Lower s.tables m.root f → tables f = s.tables f :=
    fun m hm f hf => hsame f fun _ hx => h.not_uses_table hpm habove hal hm hf hx
  refine ⟨h.heap, h.owned.frame hlower fun _ _ _ _ => id, h.seen.frame ?_ ?_⟩
  · intro m hm i _
    exact congrFun (hlower m hm m.root .self) i
  · intro t hframe hlt _
    exact hsame t fun _ hx => h.not_uses_static habove hal hframe hlt hx.2

omit hal in
/-- The address spaces take and give back frames, and the heap keeps its own. -/
theorem space (hrounds : MemoryManager.Rounds st last 256 zeros tables₀) (hlast : last ≤ 127)
    (hstep : World.Step pm (World.UserCall pm) (fun _ m => m.root ≠ st.pml4) s.toWorld w) :
    ∃ theirs', Inv st Out tables₀ { s with toWorld := w } live k out theirs' := by
  obtain ⟨mine, hmine, hout⟩ := h.heap.mapped
  have hlaw := hpm.beside mine
  have hup := habove.beside mine
  have htheirs : Beside Out mine s.toWorld.phys theirs := hmine.comm
  have hlower : World.LowerStep pm st (Beside Out mine) s.toWorld w :=
    hstep.mono fun _ _ _ _ hcall => ⟨⟨hcall.lower, hcall.inside,
      hcall.alloc_eq ▸ PageAllocator.supplies hlaw⟩, hcall.clean, hcall.vacant⟩
  obtain ⟨theirs', htheirs', howned⟩ :=
    World.Owning.step hlaw hup ⟨theirs, htheirs, h.owned⟩ hlower
  refine ⟨theirs', ?_, howned, h.seen.step h.owned hlaw hup hrounds hlast htheirs hlower⟩
  exact { h.heap with mapped := ⟨mine, htheirs'.comm, hout⟩ }

end Lawful

end Inv

/-! ## Runs -/

/-- Before the first call: one map, with nothing in its lower half, and no blocks. -/
theorem Inv.start {p : π} (hrounds : MemoryManager.Rounds st last 256 zeros tables₀)
    (hzero : MemoryManager.Zeroed st zeros) (hout : Out p []) :
    ∃ k out, Inv st Out tables₀ ⟨⟨[⟨st.pml4, []⟩], tables₀, p, []⟩, (Heap.new p).caches⟩ [] k out
      [] := by
  have hbeside : Beside Out [] p [] := ⟨[], hout, .nil⟩
  obtain ⟨out, hheap⟩ := Heap.Inv.new hbeside
  exact ⟨_, out, hheap, hrounds.owned hzero [], Seen.init st tables₀⟩

theorem Run.inv (hpm : pm.Lawful Out) (habove : AboveKernel st Out)
    (hal : tableAlignment ∣ Statics.frame st.kernelEnd)
    (hrounds : MemoryManager.Rounds st last 256 zeros tables₀) (hlast : last ≤ 127)
    {s₀ : Kernel π} (h₀ : ∃ k out, Inv st Out tables₀ s₀ [] k out [])
    (h : Run pm st.pml4 s₀ live s) :
    ∃ k out theirs, Inv st Out tables₀ s live k out theirs := by
  induction h with
  | start =>
      obtain ⟨k, out, hinv⟩ := h₀
      exact ⟨k, out, [], hinv⟩
  | allocate _ size align run ih =>
      obtain ⟨k, out, theirs, hinv⟩ := ih
      obtain ⟨res, h', k', out', hrun, hheap⟩ :=
        hinv.heap.allocate_run (hpm.beside theirs) size (Layout.align_dvd_page _ align)
      cases hrun.symm.trans run
      exact ⟨k', out', theirs, hheap, hinv.owned, hinv.seen⟩
  | deallocate _ mem run ih =>
      obtain ⟨k, out, theirs, hinv⟩ := ih
      obtain ⟨h', k', out', hrun, hheap⟩ := hinv.heap.deallocate_run (hpm.beside theirs) mem
      cases hrun.symm.trans run
      exact ⟨k', out', theirs, hheap, hinv.owned, hinv.seen⟩
  | write _ only ih =>
      obtain ⟨k, out, theirs, hinv⟩ := ih
      exact ⟨k, out, theirs, hinv.write hpm habove hal only⟩
  | space _ step ih =>
      obtain ⟨k, out, theirs, hinv⟩ := ih
      obtain ⟨theirs', hinv'⟩ := hinv.space hpm habove hrounds hlast step
      exact ⟨k, out, theirs', hinv'⟩

end Kernel

/-! ## From a booted system on -/

namespace System

open PhysicalMemoryRecord MemblockSystem

/-- The kernel's memory after `init`. -/
def kernel (sys : System) (tables : Tables) : Kernel PhysicalMemoryRecord :=
  ⟨⟨[sys.map], tables, sys.pmm, []⟩, (Heap.new sys.pmm).caches⟩

variable {π : Type} {img : Image} {areas : List MemoryArea} {uninit : ℕ → Frame}
  {s s' : Machine π} {sys : System} {live : List Allocation} {t : Kernel PhysicalMemoryRecord}

/-- The page allocator has nothing before the page in which the kernel ends. -/
theorem Started.above {tables tables' : Tables} (h : Started img areas tables sys tables')
    {Own : Node → Prop} (h₀ : Opened Own sys.pmm) :
    AboveKernel img.toStatics.whole (HandedFrom sys.pmm) := by
  rintro r out ⟨blocks, freed, hrun, rfl⟩ e he
  obtain ⟨b, -, rfl⟩ := List.mem_map.mp he
  rw [Statics.frame_whole, extentOf_congr (h₀.tracked hrun).base]
  exact h.base.trans (Nat.le_add_right _ _)

/-- What `init` sets up keeps the invariant, in every state of every run. -/
theorem Started.inv {tables tables' : Tables} (h : Started img areas tables sys tables')
    (hzero : MemoryManager.Zeroed img.toStatics tables)
    (hspread : sys.pmm.Spread sys.bmm.freeBlocks)
    (hrun : Kernel.Run physMem img.pml4 (sys.kernel tables') live t) :
    ∃ k out theirs, Kernel.Inv img.toStatics.whole (HandedFrom sys.pmm) tables' t live k out
      theirs := by
  have h₀ := h.opened hspread
  have hout : HandedFrom sys.pmm sys.pmm [] := ⟨[], [], .start, rfl⟩
  have hstart := Kernel.Inv.start h.rounds.whole hzero hout
  refine Kernel.Run.inv h₀.physMem_lawful (h.above h₀) (Statics.dvd_frame_whole _)
    h.rounds.whole h.last ?_ hrun
  rw [kernel, h.map]
  exact hstart

/-! ### The records -/

section Records

variable {tables tables' : Tables} (hstart : Started img areas tables sys tables')
  (hspread : sys.pmm.Spread sys.bmm.freeBlocks) (howns : RecordsOwned img sys)
  {k : Stock} {out theirs : List Extent}
  (hinv : Kernel.Inv img.toStatics.whole (HandedFrom sys.pmm) tables' t live k out theirs)
  {f x : ℕ}
include hstart hspread hinv

/-- The records are where they were when `init` was done. -/
theorem inRecords_iff : t.phys.InRecords x ↔ sys.pmm.InRecords x := by
  obtain ⟨mine, ⟨full, ⟨blocks, freed, hrun, -⟩, -⟩, -⟩ := hinv.heap.mapped
  exact (hstart.opened hspread).inRecords_iff hrun

include howns

end Records

end System

end Koe
